import Bracketry.Proofs.Discipline.Instances
import Bracketry.Proofs.Judgement
import Bracketry.Proofs.Machine.Text

/-
  This file tells which operands expressions are written as:
  an expression used as an operand has its own type, one
  that is converted has the type asked for, and neither
  names a temporary that has not been handed out.
-/

namespace Bracketry

namespace Build

/-
  A step that succeeds gives an operand of a type, all of
  whose temporaries have been handed out.
-/
def Yields
    (t : Ty)
    (x : Build Value) : Prop :=
  ∀ ⦃b : Builder⦄ ⦃v : Value⦄ ⦃b' : Builder⦄,
    x b = .ok v b' → v.ty = t ∧ v.Below b'.nextTemporary

theorem Yields.pure
    {t : Ty}
    {v : Value}
    (hTy : v.ty = t)
    (hBelow : ∀ bound, v.Below bound) :
    Yields t (pure v : Build Value) := by
  intro b v' b' hOk
  rcases Step.pure_eq_ok.mp hOk with ⟨rfl, rfl⟩
  exact ⟨hTy, hBelow b.nextTemporary⟩

/- What defining a temporary gives and leaves. -/
theorem define_eq
    (t : Ty)
    (i : Nat → Instruction)
    (b : Builder) :
    Build.define t i b =
      .ok (.temporary b.nextTemporary t)
        (b.number.2.append (i b.nextTemporary)) := rfl

/-
  A step that succeeds takes no temporaries back, and gives
  what goes with the number of those handed out behind it.
-/
def Counts
    {α : Type}
    (bound : Nat)
    (Q : α → Nat → Prop)
    (x : Build α) : Prop :=
  ∀ ⦃b : Builder⦄ ⦃a : α⦄ ⦃b' : Builder⦄,
    bound ≤ b.nextTemporary → x b = .ok a b' →
      b.nextTemporary ≤ b'.nextTemporary ∧
        Q a b'.nextTemporary

theorem Counts.of_writes
    {α : Type}
    {bound : Nat}
    {x : Build α}
    (hWrites : Writes [] x) :
    Counts bound (fun _ _ => True) x :=
  fun _ _ _ _ hOk => ⟨(hWrites.ok hOk).temporaries, trivial⟩

/- What operands are like in any code. -/
def operands : Judgement where
  Known := Nat
  Grows := (· ≤ ·)
  MayFail := True
  Holds := Counts
  Is := fun bound t v => v.ty = t ∧ v.Below bound
  Legal := fun _ _ => True
  Defines := fun _ _ _ => True
  inside := fun _ => id
  Breaks := fun _ => True
  trans := Nat.le_trans
  weaken := fun hLe hIs => ⟨hIs.1, hIs.2.mono hLe⟩
  int := fun _ _ => ⟨rfl, by simp [Value.Below]⟩
  float := fun _ => ⟨rfl, by simp [Value.Below]⟩
  bool := fun _ => ⟨rfl, by simp [Value.Below]⟩
  pure := by
    intro _ _ _ _ hResult b a b' hLe hOk
    rcases Step.pure_eq_ok.mp hOk with ⟨rfl, rfl⟩
    exact ⟨Nat.le_refl _, hResult _ hLe⟩
  throw := fun _ _ _ _ _ _ hOk => nomatch hOk
  bind := by
    intro _ _ _ _ _ _ _ hFirst hSecond b c b₂ hLe hOk
    rcases Step.bind_eq_ok.mp hOk with ⟨a, b₁, hOk₁, hOk₂⟩
    rcases hFirst hLe hOk₁ with ⟨hLe₁, hResult⟩
    rcases hSecond a _ (Nat.le_trans hLe hLe₁) hResult
      (Nat.le_refl _) hOk₂ with ⟨hLe₂, hRest⟩
    exact ⟨Nat.le_trans hLe₁ hLe₂, hRest⟩
  getBind := fun hNext b _ _ hLe hOk => hNext b hLe hOk
  label := by
    intro _ b l b' _ hOk
    rcases label_eq_ok.mp hOk with ⟨-, rfl⟩
    exact ⟨Nat.le_refl _, trivial⟩
  place := by
    intro _ l b _ b' _ hOk
    rcases Step.modify_eq_ok.mp hOk with rfl
    exact ⟨Nat.le_of_eq (b.nextTemporary_place l).symm,
      trivial⟩
  jump := fun l => .of_writes (.jump l)
  branch := fun onTrue onFalse _ =>
    .of_writes (.branch _ onTrue onFalse)
  append := fun _ => .of_writes (.append _)
  define := by
    intro _ t i _ b v b' _ hOk
    rw [define_eq] at hOk
    cases hOk
    have hLe :=
      (Builder.Writes.append b.number.2
        (i b.nextTemporary)).temporaries
    exact ⟨Nat.le_of_succ_le hLe, rfl, hLe⟩
  merge := fun _ _ => trivial
  insideLoop := by
    intro _ exit _ hBody b _ b' hLe hOk
    rcases insideLoop_eq_ok.mp hOk with ⟨b₁, hOk₁, rfl⟩
    have hInner := hBody
      (b := { b with loopExits := exit :: b.loopExits }) hLe
        hOk₁
    exact hInner
  breaks := fun _ _ => trivial
  breaking := fun _ => id
  leave := fun line _ =>
    .of_writes (Stmt.lowerBreak_writes line)

theorem Yields.of_offers
    {t : Ty}
    {x : Build Value}
    (hOffers : ∀ bound, operands.Offers bound t x) :
    Yields t x :=
  fun b _ _ hOk =>
    (hOffers b.nextTemporary (Nat.le_refl _) hOk).2

end Build

namespace Value

/- A literal that is folded names no temporary. -/
theorem ofInt?_below
    {value : Int}
    {source target : Ty}
    {folded : Value}
    (hFolded : ofInt? value source target = some folded)
    (bound : Nat) :
    folded.Below bound :=
  (is_of_ofInt? (J := Build.operands) (k := bound)
    hFolded).2

theorem ofFloat?_below
    {value : Double}
    {target : Ty}
    {folded : Value}
    (hFolded : ofFloat? value target = some folded)
    (bound : Nat) :
    folded.Below bound :=
  (is_of_ofFloat? (J := Build.operands) (k := bound)
    hFolded).2

theorem below_array
    {bound : Nat}
    {values : List Value}
    (hAll : ∀ v ∈ values, v.Below bound)
    (t : Ty) :
    (Value.array values t).Below bound := by
  rw [Below]
  induction values with
  | nil => simp [AllBelow]
  | cons v rest ih =>
      rcases List.forall_mem_cons.mp hAll with
        ⟨hFirst, hRest⟩
      rw [AllBelow]
      exact ⟨hFirst, ih hRest⟩

end Value

/- Nothing is asked of the nodes of a tree. -/
theorem Build.operands_covers :
    operands.Covers (fun _ => True) (fun _ => True)
      fun _ _ => True where
  slot := fun _ _ _ _ _ _ hOk =>
    ⟨((Writes.allocate _ _).ok hOk).temporaries, rfl,
      by simp [Value.Below]⟩
  element :=
    fun _ => ⟨trivial, trivial, trivial, fun _ _ => trivial⟩
  member := fun _ => ⟨trivial, fun _ => trivial⟩
  kept := fun _ _ _ hIs hTy => ⟨hTy, hIs.2⟩
  converted := fun _ _ _ _ _ _ => trivial
  refused := fun _ _ _ _ _ _ => trivial
  int := fun _ =>
    ⟨fun _ => ⟨rfl, by simp [Value.Below]⟩,
      fun _ _ => .inl trivial⟩
  float := fun _ _ _ => .inl trivial
  zero := fun _ _ => ⟨rfl, by simp [Value.Below]⟩
  array := by
    intro elements t line _
    refine ⟨fun _ _ => trivial,
      fun u _ => ⟨fun _ => trivial, ?_⟩⟩
    intro w _
    refine ⟨fun _ _ => trivial, fun k values _ hValues =>
      ⟨rfl, ?_⟩⟩
    exact Value.below_array
      (fun v hMem => (hValues v hMem).2) u
  read := fun _ => ⟨trivial, fun _ => trivial⟩
  arithmetic := fun _ =>
    ⟨trivial, trivial, trivial, trivial, fun _ _ => trivial⟩
  negate := fun _ => ⟨trivial, trivial, fun _ => trivial⟩
  call := by
    intro callee prototype args params t line _
    refine ⟨fun _ _ => trivial, fun _ _ => trivial,
      fun _ => ?_⟩
    refine ⟨fun hVoid => ⟨trivial, fun _ => ?_⟩,
      fun _ => trivial⟩
    exact ⟨rfl, by simp [Value.Below]⟩
  compare := fun _ => ⟨trivial, trivial, fun _ _ => trivial,
    fun _ _ => ⟨trivial, trivial, fun _ _ => trivial⟩⟩
  and := fun _ => ⟨trivial, trivial, trivial, trivial⟩
  or := fun _ => ⟨trivial, trivial, trivial, trivial⟩
  not := fun _ => ⟨trivial, trivial⟩

/- An expression gives operands of the right types. -/
structure Lowering.Yields
    (lowering : Lowering)
    (t : Ty) : Prop where
  reduce : Build.Yields t lowering.reduce
  convert : ∀ target, Build.Yields target
    (lowering.convert target)

/- An address points to a value of the type of the place. -/
theorem Place.address_yields
    (place : Place) :
    Build.Yields (.pointer place.ty) place.address :=
  .of_offers
    (place.address_follows Build.operands_covers trivial)

theorem Expr.lower_yields
    (e : Expr) :
    e.lower.Yields e.ty := by
  have hFollows :=
    e.lower_follows Build.operands_covers trivial
  exact ⟨.of_offers (hFollows.reduce trivial),
    fun target => .of_offers fun bound =>
      hFollows.convert bound target trivial⟩

/- Each expression gives operands of some type. -/
theorem Expr.lowerAll_yields
    (es : List Expr) :
    ∀ lowering ∈ Expr.lowerAll es, ∃ t,
      lowering.Yields t := by
  induction es with
  | nil => simp [Expr.lowerAll]
  | cons e rest ih =>
      rw [Expr.lowerAll]
      exact List.forall_mem_cons.mpr
        ⟨⟨e.ty, e.lower_yields⟩, ih⟩

end Bracketry
