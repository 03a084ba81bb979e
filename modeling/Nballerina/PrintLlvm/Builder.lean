import Nballerina.PrintLlvm.Words

/-!
# Building a function (`print.llvm`)

`FunctionDefn`, `BasicBlock` and `Builder` of `print.llvm/llvm.bal`: names are made unique when they are
asked for, and every operation adds the words of an instruction to the current block.

Mirroring notes:
- A type is the text that `typeToString` gives for it. The operations that look into a type are given
  what they find there: what a pointer points to, the element of a structure, the type that a function
  returns. The checks of types, which panic, are left out: they let through no name that the others do
  not, so every run of the code is a run of the model.
- Values that are no parameter and no result (constants, globals, functions) are the text of their
  operand. `Text`s that the code gets from elsewhere are not blank at their ends (`Lexeme`).
- A word says what it stands for (`Word`); the code has only its name.
- Blocks are known by their place among the blocks of the function. The values that have been given out
  are kept (`values`): an operation takes constants and values of its own function.
- `FunctionDefn.operand`, attributes, the linkage and the metadata of the function are not looked at by
  what is printed between its braces.
- The calls that `DIBuilder` adds to a block are not operations of a `Builder`, and left out.
-/

namespace Nballerina.PrintLlvm

/-- A word that is printed as it is. -/
structure Lexeme where
  text : Text
  solid : Solid text
deriving DecidableEq

/-! ## Words and values -/

/-- `BasicBlock.ref()`, from the label. -/
def ref : Name → Name
  | .text s => .text ('%' :: s)
  | .unnamed n => .unnamed n

inductive Word where
  /-- a keyword, a type, a constant, punctuation -/
  | lexeme (l : Lexeme)
  /-- the register that an instruction defines -/
  | result (reg : Name)
  /-- a parameter or the result of an instruction -/
  | operand (name : Name)
  /-- where a branch goes, by its label -/
  | block (label : Name)
deriving DecidableEq

def Word.name : Word → Name
  | .lexeme l => .text l.text
  | .result reg => reg
  | .operand name => name
  | .block label => ref label

def keyword (s : String) (h : Solid s.toList) : Word := .lexeme ⟨s.toList, h⟩

theorem solid_toDigits (n : Nat) : Solid (Nat.toDigits 10 n) := by
  have hall : ∀ ch ∈ Nat.toDigits 10 n, isWhiteSpace ch = false ∧ ch ≠ '"' := by
    intro ch hch
    have hdigit : isDigit ch = true := Nat.isDigit_of_mem_toDigits (by omega) (by omega) hch
    refine ⟨isWhiteSpace_of_isIdentFollow (isIdentFollow_of_isDigit hdigit), ?_⟩
    rintro rfl
    exact absurd hdigit (by decide)
  refine ⟨Nat.toDigits_ne_nil, fun ch hch => (hall ch (List.mem_of_mem_head? hch)).1,
    fun ch hch => (hall ch (List.mem_of_mem_getLast? hch)).1, fun hquote => ?_⟩
  exact (hall '"' (hquote ▸ List.mem_cons_self)).2 rfl

/-- `n.toString()`. -/
def numberWord (n : Nat) : Word := .lexeme ⟨Nat.toDigits 10 n, solid_toDigits n⟩

def EQUALS : Lexeme := ⟨['='], by decide⟩
def COMMA : Lexeme := ⟨[','], by decide⟩
def OPEN_PAREN : Lexeme := ⟨['('], by decide⟩
def CLOSE_PAREN : Lexeme := ⟨[')'], by decide⟩
def TO : Lexeme := ⟨['t', 'o'], by decide⟩

inductive Value where
  /-- `ConstValue` or `Function` -/
  | const (ty operand : Lexeme)
  /-- a parameter or the result of an instruction -/
  | data (ty : Lexeme) (operand : Name)
deriving DecidableEq

def Value.ty : Value → Lexeme
  | .const ty _ => ty
  | .data ty _ => ty

def Value.word : Value → Word
  | .const _ operand => .lexeme operand
  | .data _ operand => .operand operand

/-! ## Operations -/

inductive IntArithmeticOp where
  | add | sub | mul
deriving DecidableEq, Repr

inductive BinaryOp where
  | int (op : IntArithmeticOp)
  | sdiv | srem
  | xor | or | and | shl | ashr | lshr
  | fadd | fsub | fmul | fdiv | frem
deriving DecidableEq, Repr

inductive IntPredicate where
  | eq | ne | ugt | uge | ult | ule | sgt | sge | slt | sle
deriving DecidableEq, Repr

inductive FloatPredicate where
  | false | oeq | ogt | oge | olt | ole | one | ord | ueq | ugt | uge | ult | ule | une | uno | true
deriving DecidableEq, Repr

def IntArithmeticOp.word : IntArithmeticOp → Word
  | add => keyword "add" (by decide)
  | sub => keyword "sub" (by decide)
  | mul => keyword "mul" (by decide)

def BinaryOp.word : BinaryOp → Word
  | int op => op.word
  | sdiv => keyword "sdiv" (by decide)
  | srem => keyword "srem" (by decide)
  | xor => keyword "xor" (by decide)
  | or => keyword "or" (by decide)
  | and => keyword "and" (by decide)
  | shl => keyword "shl" (by decide)
  | ashr => keyword "ashr" (by decide)
  | lshr => keyword "lshr" (by decide)
  | fadd => keyword "fadd" (by decide)
  | fsub => keyword "fsub" (by decide)
  | fmul => keyword "fmul" (by decide)
  | fdiv => keyword "fdiv" (by decide)
  | frem => keyword "frem" (by decide)

def IntPredicate.word : IntPredicate → Word
  | eq => keyword "eq" (by decide)
  | ne => keyword "ne" (by decide)
  | ugt => keyword "ugt" (by decide)
  | uge => keyword "uge" (by decide)
  | ult => keyword "ult" (by decide)
  | ule => keyword "ule" (by decide)
  | sgt => keyword "sgt" (by decide)
  | sge => keyword "sge" (by decide)
  | slt => keyword "slt" (by decide)
  | sle => keyword "sle" (by decide)

def FloatPredicate.word : FloatPredicate → Word
  | false => keyword "false" (by decide)
  | oeq => keyword "oeq" (by decide)
  | ogt => keyword "ogt" (by decide)
  | oge => keyword "oge" (by decide)
  | olt => keyword "olt" (by decide)
  | ole => keyword "ole" (by decide)
  | one => keyword "one" (by decide)
  | ord => keyword "ord" (by decide)
  | ueq => keyword "ueq" (by decide)
  | ugt => keyword "ugt" (by decide)
  | uge => keyword "uge" (by decide)
  | ult => keyword "ult" (by decide)
  | ule => keyword "ule" (by decide)
  | une => keyword "une" (by decide)
  | uno => keyword "uno" (by decide)
  | true => keyword "true" (by decide)

/-- The operations of `Builder`. Blocks are given by their place in the function. -/
inductive Insn where
  | alloca (ty : Lexeme) (align : Option Nat)
  | load (pointsTo : Lexeme) (ptr : Value) (align : Option Nat)
  | store (val ptr : Value) (align : Option Nat)
  /-- `fArithmetic`, `iArithmeticWrap`, `iArithmeticSigned` and `iBitwise` -/
  | binaryOpWrap (op : BinaryOp) (lhs rhs : Value)
  | iArithmeticNoWrap (op : IntArithmeticOp) (lhs rhs : Value)
  | iCmp (op : IntPredicate) (lhs rhs : Value)
  | fCmp (op : FloatPredicate) (lhs rhs : Value)
  | bitCast (val : Value) (destTy : Lexeme)
  | ret (value : Option Value)
  | ptrToInt (ptr : Value) (destTy : Lexeme)
  | zExt (val : Value) (destTy : Lexeme)
  | sExt (val : Value) (destTy : Lexeme)
  | trunc (val : Value) (destinationType : Lexeme)
  | fNeg (val : Value)
  | sIToFP (val : Value) (destTy : Lexeme)
  | unreachable
  /-- `retType` is `none` for `void` -/
  | call (retType : Option Lexeme) (fn : Value) (args : List Value)
  | extractValue (value : Value) (index : Nat) (elementType : Lexeme)
  | br (destination : Nat)
  | condBr (condition : Value) (ifTrue ifFalse : Nat)
  | getElementPtr (pointsTo : Lexeme) (ptr : Value) (indices : List Value) (inbounds : Bool) (destTy : Lexeme)
  | addrSpaceCast (val : Value) (destTy : Lexeme)
deriving DecidableEq

/-- The type of the result. -/
def Insn.resultTy : Insn → Option Lexeme
  | alloca _ _ => some ⟨"ptr".toList, by decide⟩
  | load pointsTo _ _ => some pointsTo
  | store _ _ _ => none
  | binaryOpWrap _ lhs _ => some lhs.ty
  | iArithmeticNoWrap _ lhs _ => some lhs.ty
  | iCmp _ _ _ => some ⟨"i1".toList, by decide⟩
  | fCmp _ _ _ => some ⟨"i1".toList, by decide⟩
  | bitCast _ destTy => some destTy
  | ret _ => none
  | ptrToInt _ destTy => some destTy
  | zExt _ destTy => some destTy
  | sExt _ destTy => some destTy
  | trunc _ destinationType => some destinationType
  | fNeg val => some val.ty
  | sIToFP _ destTy => some destTy
  | unreachable => none
  | call retType _ _ => retType
  | extractValue _ _ elementType => some elementType
  | br _ => none
  | condBr _ _ _ => none
  | getElementPtr _ _ _ _ destTy => some destTy
  | addrSpaceCast _ destTy => some destTy

/-- The values that an operation is given. -/
def Insn.values : Insn → List Value
  | alloca _ _ => []
  | load _ ptr _ => [ptr]
  | store val ptr _ => [val, ptr]
  | binaryOpWrap _ lhs rhs => [lhs, rhs]
  | iArithmeticNoWrap _ lhs rhs => [lhs, rhs]
  | iCmp _ lhs rhs => [lhs, rhs]
  | fCmp _ lhs rhs => [lhs, rhs]
  | bitCast val _ => [val]
  | ret value => value.toList
  | ptrToInt ptr _ => [ptr]
  | zExt val _ => [val]
  | sExt val _ => [val]
  | trunc val _ => [val]
  | fNeg val => [val]
  | sIToFP val _ => [val]
  | unreachable => []
  | call _ fn args => fn :: args
  | extractValue value _ _ => [value]
  | br _ => []
  | condBr condition _ _ => [condition]
  | getElementPtr _ ptr indices _ _ => ptr :: indices
  | addrSpaceCast val _ => [val]

/-- The blocks that an operation branches to. -/
def Insn.destinations : Insn → List Nat
  | br destination => [destination]
  | condBr _ ifTrue ifFalse => [ifTrue, ifFalse]
  | _ => []

/-! ## Words of an operation -/

/-- `addInsnWithAlign`. -/
def alignWords : Option Nat → List Word
  | none => []
  | some align => [.lexeme COMMA, keyword "align" (by decide), numberWord align]

/-- `addInsnWithDbLocation`. -/
def dbWords : Option Lexeme → List Word
  | none => []
  | some dbLocation => [.lexeme COMMA, keyword "!dbg" (by decide), .lexeme dbLocation]

/-- An instruction with two operands of one type. -/
def binaryWords (lhs rhs : Value) : List Word := [.lexeme lhs.ty, lhs.word, .lexeme COMMA, rhs.word]

/-- A conversion, as `bitCastArgs` and `addrSpaceCastArgs` have it too. -/
def castWords (opcode : Word) (val : Value) (destTy : Lexeme) : List Word :=
  [.lexeme EQUALS, opcode, .lexeme val.ty, val.word, .lexeme TO, .lexeme destTy]

/-- The arguments of a call, from the `i`th on. -/
def argWords (i : Nat) : List Value → List Word
  | [] => []
  | arg :: args => (if i > 0 then [.lexeme COMMA] else []) ++ [.lexeme arg.ty, arg.word] ++ argWords (i + 1) args

/-- `buildFunctionCallBody`. -/
def buildFunctionCallBody (retType : Option Lexeme) (fn : Value) (args : List Value) : List Word :=
  (if retType.isSome then [.lexeme EQUALS] else []) ++
    [keyword "call" (by decide), retType.elim (keyword "void" (by decide)) .lexeme, fn.word, .lexeme OPEN_PAREN] ++
    argWords 0 args ++ [.lexeme CLOSE_PAREN]

/-- `gepArgs`. -/
def gepArgs (pointsTo : Lexeme) (ptr : Value) (indices : List Value) : List Word :=
  [.lexeme pointsTo, .lexeme COMMA, .lexeme ptr.ty, ptr.word] ++
    indices.flatMap fun index => [.lexeme COMMA, .lexeme index.ty, index.word]

/-- The words after the register of the result. -/
def Insn.words (label : Nat → Name) : Insn → List Word
  | alloca ty align => [.lexeme EQUALS, keyword "alloca" (by decide), .lexeme ty] ++ alignWords align
  | load pointsTo ptr align =>
    [.lexeme EQUALS, keyword "load" (by decide), .lexeme pointsTo, .lexeme COMMA, .lexeme ptr.ty, ptr.word] ++
      alignWords align
  | store val ptr align =>
    [keyword "store" (by decide), .lexeme val.ty, val.word, .lexeme COMMA, .lexeme ptr.ty, ptr.word] ++
      alignWords align
  | binaryOpWrap op lhs rhs => [.lexeme EQUALS, op.word] ++ binaryWords lhs rhs
  | iArithmeticNoWrap op lhs rhs =>
    [.lexeme EQUALS, op.word, keyword "nsw" (by decide)] ++ binaryWords lhs rhs
  | iCmp op lhs rhs => [.lexeme EQUALS, keyword "icmp" (by decide), op.word] ++ binaryWords lhs rhs
  | fCmp op lhs rhs => [.lexeme EQUALS, keyword "fcmp" (by decide), op.word] ++ binaryWords lhs rhs
  | bitCast val destTy => castWords (keyword "bitcast" (by decide)) val destTy
  | ret none => [keyword "ret" (by decide), keyword "void" (by decide)]
  | ret (some value) => [keyword "ret" (by decide), .lexeme value.ty, value.word]
  | ptrToInt ptr destTy => castWords (keyword "ptrtoint" (by decide)) ptr destTy
  | zExt val destTy => castWords (keyword "zext" (by decide)) val destTy
  | sExt val destTy => castWords (keyword "sext" (by decide)) val destTy
  | trunc val destinationType => castWords (keyword "trunc" (by decide)) val destinationType
  | fNeg val => [.lexeme EQUALS, keyword "fneg" (by decide), .lexeme val.ty, val.word]
  | sIToFP val destTy => castWords (keyword "sitofp" (by decide)) val destTy
  | unreachable => [keyword "unreachable" (by decide)]
  | call retType fn args => buildFunctionCallBody retType fn args
  | extractValue value index _ =>
    [.lexeme EQUALS, keyword "extractvalue" (by decide), .lexeme value.ty, value.word, .lexeme COMMA, numberWord index]
  | br destination => [keyword "br" (by decide), keyword "label" (by decide), .block (label destination)]
  | condBr condition ifTrue ifFalse =>
    [keyword "br" (by decide), keyword "i1" (by decide), condition.word, .lexeme COMMA, keyword "label" (by decide),
      .block (label ifTrue), .lexeme COMMA, keyword "label" (by decide), .block (label ifFalse)]
  | getElementPtr pointsTo ptr indices inbounds _ =>
    [.lexeme EQUALS, keyword "getelementptr" (by decide)] ++
      (if inbounds then [keyword "inbounds" (by decide)] else []) ++ gepArgs pointsTo ptr indices
  | addrSpaceCast val destTy => castWords (keyword "addrspacecast" (by decide)) val destTy

/-! ## Functions -/

structure BasicBlock where
  label : Name
  /-- what `addInsn` was given -/
  insns : List (List Word)
  isReferenced : Bool
deriving DecidableEq

/-- `lines`, as `addInsn` leaves them. -/
def BasicBlock.lines (b : BasicBlock) : List (List Name) := b.insns.map fun words => chunks (words.map Word.name)

structure FunctionDefn where
  paramTypes : List Lexeme
  basicBlocks : List BasicBlock
  /-- the first entry of a name counts -/
  variableNames : List (Text × Nat)
  unnamedLabelCount : Nat
  isBasicBlock : List Bool
  /-- the parameters, and the results of the operations so far -/
  values : List Value

/-- `paramValues`. -/
def paramValues (paramTypes : List Lexeme) : List Value :=
  paramTypes.mapIdx fun i paramType => .data paramType (.text ('%' :: Nat.toDigits 10 i))

/-- `FunctionDefn.init`. -/
def FunctionDefn.init (paramTypes : List Lexeme) : FunctionDefn where
  paramTypes := paramTypes
  basicBlocks := []
  variableNames := []
  unnamedLabelCount := 0
  isBasicBlock := []
  values := paramValues paramTypes

/-- Assignment to a member of an array, which grows with `filler` where it has to. -/
def arraySet {α : Type} (filler : α) (array : List α) (index : Nat) (value : α) : List α :=
  if index < array.length then array.set index value
  else array ++ List.replicate (index - array.length) filler ++ [value]

def hasKey (variableNames : List (Text × Nat)) (name : Text) : Bool := (variableNames.lookup name).isSome

def numberedName (varName : Text) (count : Nat) : Text := varName ++ '.' :: Nat.toDigits 10 count

/-- The loop of `genName`, from `count` on. More rounds than there are names in use are not needed. -/
def freshName (variableNames : List (Text × Nat)) (varName : Text) : Nat → Nat → Text
  | 0, count => numberedName varName count
  | rounds + 1, count =>
    if hasKey variableNames (numberedName varName count) then freshName variableNames varName rounds (count + 1)
    else numberedName varName count

namespace FunctionDefn

def genName (f : FunctionDefn) : Option Text → Name × FunctionDefn
  | some varName =>
    match f.variableNames.lookup varName with
    | some count =>
      let variableNames := (varName, count + 1) :: f.variableNames
      let newName := freshName variableNames varName variableNames.length count
      (.text (escapeIdent newName), { f with variableNames := (newName, 1) :: variableNames })
    | none => (.text (escapeIdent varName), { f with variableNames := (varName, 1) :: f.variableNames })
  | none => (.unnamed f.unnamedLabelCount, { f with unnamedLabelCount := f.unnamedLabelCount + 1 })

def genReg (f : FunctionDefn) (name : Option Text) : Name × FunctionDefn :=
  match f.genName name with
  | (.text reg, f) => (.text ('%' :: reg), f)
  | (.unnamed reg, f) => (.unnamed reg, { f with isBasicBlock := arraySet false f.isBasicBlock reg false })

def appendBasicBlock (f : FunctionDefn) (name : Option Text) : FunctionDefn :=
  let (bbName, f) := f.genName name
  let f : FunctionDefn := match bbName with
    | .text _ => f
    | .unnamed n => { f with isBasicBlock := arraySet false f.isBasicBlock n true }
  { f with basicBlocks := f.basicBlocks ++ [⟨bbName, [], false⟩] }

/-- Constants belong to every function. -/
def has (f : FunctionDefn) : Value → Bool
  | .const _ _ => true
  | .data ty operand => f.values.contains (.data ty operand)

def label (f : FunctionDefn) (block : Nat) : Name := (f.basicBlocks[block]?.map BasicBlock.label).getD (.text [])

/-- `isReferenced` after `ref()` of the blocks. -/
def reference (f : FunctionDefn) (blocks : List Nat) : FunctionDefn :=
  { f with basicBlocks := f.basicBlocks.mapIdx fun i b =>
      { b with isReferenced := b.isReferenced || blocks.contains i } }

def addInsn (f : FunctionDefn) (block : Nat) (words : List Word) : FunctionDefn :=
  { f with basicBlocks := f.basicBlocks.modify block fun b => { b with insns := b.insns ++ [words] } }

/-- An operation of a builder at the end of a block. -/
def build (f : FunctionDefn) (block : Nat) (dbLocation : Option Lexeme) (insn : Insn) (name : Option Text) :
    FunctionDefn :=
  match insn.resultTy with
  | some ty =>
    let (reg, f) := f.genReg name
    let f := f.addInsn block (.result reg :: (insn.words f.label ++ dbWords dbLocation))
    { f with values := f.values ++ [.data ty reg] }
  | none => (f.reference insn.destinations).addInsn block (insn.words f.label ++ dbWords dbLocation)

end FunctionDefn

/-! ## Runs -/

structure Builder where
  currentBlock : Option Nat
  dbLocation : Option Lexeme

/-- What is done with a builder and a function. -/
inductive Op where
  | appendBasicBlock (name : Option Text)
  | genReg (name : Option Text)
  | positionAtEnd (block : Nat)
  | setCurrentDebugLocation (dbLocation : Option Lexeme)
  | build (insn : Insn) (name : Option Text)
deriving DecidableEq

structure State where
  builder : Builder
  defn : FunctionDefn

def State.init (paramTypes : List Lexeme) : State := ⟨⟨none, none⟩, FunctionDefn.init paramTypes⟩

/-- An operation takes blocks and values of the function; without a current block it panics. -/
def step (st : State) : Op → Option State
  | .appendBasicBlock name => some { st with defn := st.defn.appendBasicBlock name }
  | .genReg name => some { st with defn := (st.defn.genReg name).2 }
  | .positionAtEnd block =>
    if block < st.defn.basicBlocks.length then
      some { st with builder := { st.builder with currentBlock := some block } }
    else none
  | .setCurrentDebugLocation dbLocation => some { st with builder := { st.builder with dbLocation := dbLocation } }
  | .build insn name =>
    match st.builder.currentBlock with
    | none => none
    | some block =>
      if insn.values.all st.defn.has ∧ ∀ b ∈ insn.destinations, b < st.defn.basicBlocks.length then
        some { st with defn := st.defn.build block st.builder.dbLocation insn name }
      else none

def run (st : State) (ops : List Op) : Option State := ops.foldlM step st

end Nballerina.PrintLlvm
