import Bracketry.Identifier
import Bracketry.Token

/-
  This file defines generated code: operands, labels and
  instructions, and the listing of a whole program, with the
  text that is written for each.
-/

namespace Bracketry

/-
  An operand with its type: a literal, a numbered temporary,
  a named register, a constant array, the all-zero value, or
  the result of a call that has none.
-/
inductive Value where
| int (value : Int) (ty : Ty)
| float (value : Double) (ty : Ty)
| bool (value : Bool) (ty : Ty)
| temporary (number : Nat) (ty : Ty)
| named (name : String) (ty : Ty)
| array (elements : List Value) (ty : Ty)
| zero (ty : Ty)
| void (ty : Ty)
deriving Repr

namespace Value

/- The type of an operand. -/
def ty : Value → Ty
| .int _ t => t
| .float _ t => t
| .bool _ t => t
| .temporary _ t => t
| .named _ t => t
| .array _ t => t
| .zero t => t
| .void t => t

mutual

/- An operand as it is written. -/
def text : Value → String
| .int n _ => toString n
| .float x _ => x.operandText
| .bool b _ => toString b
| .temporary n _ => "%t." ++ toString n
| .named name _ => name
| .array elements _ =>
    "[" ++ String.intercalate ", " (typedAll elements) ++
      "]"
| .zero _ => "zeroinitializer"
| .void _ => ""

/- The elements of an array, each behind its type. -/
def typedAll : List Value → List String
| [] => []
| v :: rest => (v.ty.text ++ " " ++ v.text) :: typedAll rest

end

/- An operand behind its type. -/
def typed (v : Value) : String :=
  v.ty.text ++ " " ++ v.text

mutual

/- Whether an operand is known before the program runs. -/
def isConstant : Value → Bool
| .int _ _ => true
| .float _ _ => true
| .bool _ _ => true
| .zero _ => true
| .array elements _ => areConstant elements
| _ => false

/- Whether all elements are known before the run. -/
def areConstant : List Value → Bool
| [] => true
| v :: rest => v.isConstant && areConstant rest

end

/- What falling off the end of a function returns. -/
def initial (t : Ty) : Value :=
  match t with
  | .bool => .bool false t
  | .float => .float .zero t
  | .char => .int 0 t
  | .int => .int 0 t
  | _ => .zero t

end Value

------------------------------------------------------------
-- Instructions
------------------------------------------------------------

/- The start of a block. -/
structure Label where
  number : Nat
deriving DecidableEq, Repr

namespace Label

/- A label as it is placed. -/
def text (l : Label) : String :=
  "L" ++ toString l.number

/- A label as branches name it. -/
def target (l : Label) : String :=
  "%" ++ l.text

end Label

/- Conversions between numeric types. -/
inductive Conversion where
| intToFloat
| floatToInt
| widen
| narrow
deriving DecidableEq, Repr

/- The name of a conversion. -/
def Conversion.text : Conversion → String
| .intToFloat => "sitofp"
| .floatToInt => "fptosi"
| .widen => "zext"
| .narrow => "trunc"

/- The name of an operation at a type. -/
def Arithmetic.opcode
    (op : Arithmetic)
    (t : Ty) : String :=
  let base :=
    match op with
    | .add => "add"
    | .subtract => "sub"
    | .multiply => "mul"
    | .divide => "div"
  if t.IsFloating then
    "f" ++ base
  else if op = .divide then
    "s" ++ base
  else
    base

/- The name of a comparison at a type. -/
def Comparison.opcode
    (op : Comparison)
    (t : Ty) : String :=
  if t.IsFloating then
    match op with
    | .equal => "fcmp oeq"
    | .notEqual => "fcmp one"
    | .less => "fcmp olt"
    | .lessEqual => "fcmp ole"
    | .greater => "fcmp ogt"
    | .greaterEqual => "fcmp oge"
  else
    match op with
    | .equal => "icmp eq"
    | .notEqual => "icmp ne"
    | .less => "icmp slt"
    | .lessEqual => "icmp sle"
    | .greater => "icmp sgt"
    | .greaterEqual => "icmp sge"

/-
  An instruction.  `dest` is the number of the temporary
  that it defines.
-/
inductive Instruction where
| allocate (slot : String) (ty : Ty)
| load (dest : Nat) (ty : Ty) (address : Value)
| store (value address : Value)
| arithmetic (dest : Nat) (op : Arithmetic) (ty : Ty)
    (left right : Value)
| negate (dest : Nat) (ty : Ty) (operand : Value)
| compare (dest : Nat) (op : Comparison) (ty : Ty)
    (left right : Value)
| convert (dest : Nat) (how : Conversion) (value : Value)
    (target : Ty)
| element (dest : Nat) (container : Ty) (base index : Value)
    (part : Ty)
| call (dest : Option Nat) (ty : Ty) (callee : String)
    (args : List Value)
| merge (dest : Nat) (onTrue onFalse : Label)
| jump (target : Label)
| branch (condition : Value) (onTrue onFalse : Label)
| ret (value : Option Value)
| verbatim (text : String)
deriving Repr

namespace Instruction

/- The start of an instruction that defines a temporary. -/
def define (dest : Nat) : String :=
  "%t." ++ toString dest ++ " = "

/- An instruction as it is written. -/
def text : Instruction → String
| .allocate slot t =>
    slot ++ " = alloca " ++ t.text
| .load dest t address =>
    define dest ++ "load " ++ t.text ++ ", " ++ t.text ++
      "* " ++ address.text
| .store value address =>
    "store " ++ value.typed ++ ", " ++ value.ty.text ++
      "* " ++ address.text
| .arithmetic dest op t left right =>
    define dest ++ op.opcode t ++ " " ++ t.text ++ " " ++
      left.text ++ ", " ++ right.text
| .negate dest t operand =>
    if t.IsFloating then
      define dest ++ "fneg " ++ t.text ++ " " ++
          operand.text
    else
      define dest ++ "sub " ++ t.text ++ " 0, " ++
          operand.text
| .compare dest op t left right =>
    define dest ++ op.opcode t ++ " " ++ t.text ++ " " ++
      left.text ++ ", " ++ right.text
| .convert dest how value target =>
    define dest ++ how.text ++ " " ++ value.typed ++
      " to " ++ target.text
| .element dest container base index _ =>
    define dest ++ "getelementptr " ++ container.text ++
      ", " ++ container.text ++ "* " ++ base.text ++
        ", i32 0, i32 " ++
      index.text
| .call dest t callee args =>
    let start := (dest.map define).getD ""
    start ++ "call " ++ t.text ++ " " ++ callee ++ "(" ++
      String.intercalate ", " (args.map Value.typed) ++ ")"
| .merge dest onTrue onFalse =>
    define dest ++ "phi i1 [ true, " ++ onTrue.target ++
      " ], [ false, " ++ onFalse.target ++ " ]"
| .jump target =>
    "br label " ++ target.target
| .branch condition onTrue onFalse =>
    "br i1 " ++ condition.text ++ ", label " ++
      onTrue.target ++ ", label " ++ onFalse.target
| .ret none => "ret void"
| .ret (some value) => "ret " ++ value.typed
| .verbatim text => text

/-
  Whether an instruction is the last of its block.  Text
  that is given verbatim is judged by how it starts.
-/
def endsBlock : Instruction → Bool
| .jump _ => true
| .branch _ _ _ => true
| .ret _ => true
| .verbatim text =>
    "br ".isPrefixOf text || "ret".isPrefixOf text ||
      "unreachable".isPrefixOf text
| _ => false

end Instruction

/- A line of the code of a function. -/
inductive Line where
| label (label : Label)
| instruction (instruction : Instruction)
deriving Repr

/- A line as it is written, with its end. -/
def Line.text : Line → String
| .label l => l.text ++ ":\n"
| .instruction i => "  " ++ i.text ++ "\n"

/- The register in which an argument arrives. -/
def Identifier.incoming (x : Identifier) : Value :=
  .named ("%" ++ x.name ++ ".in") x.ty

/- The code of one function. -/
structure Definition where
  signature : Prototype
  lines : List Line

namespace Definition

/- The line that opens a function. -/
def header (d : Definition) : String :=
  let params := d.signature.params.map fun x =>
    x.incoming.typed
  "define " ++ d.signature.returnType.text ++ " " ++
    d.signature.name.storage ++ "(" ++
    String.intercalate ", " params ++ ") \x7b"

/- The whole function, with an empty line behind it. -/
def text (d : Definition) : String :=
  d.header ++ "\n" ++ String.join (d.lines.map Line.text) ++
    "\x7d\n\n"

end Definition

/- The records and functions of a program, in order. -/
structure Listing where
  records : List Record
  definitions : List Definition

namespace Listing

/- The line that defines a record. -/
def recordText (r : Record) : String :=
  "%" ++ r.name ++ " = " ++ r.definition ++ "\n"

/- Records, an empty line, then functions. -/
def text (l : Listing) : String :=
  let records := String.join (l.records.map recordText)
  let gap := if l.records.isEmpty then "" else "\n"
  records ++ gap ++
    String.join (l.definitions.map Definition.text)

end Listing

end Bracketry
