import Nballerina.PrintLlvm.Builder

/-!
# The words of an instruction (`print.llvm`)

What all operations have in common: the words they add mention the values and blocks that the operation
was given, and after a mention comes punctuation (`follows_line`). Conversions are the exception: there
the word `to` comes after the operand.
-/

namespace Nballerina.PrintLlvm

/-- Whether a word stands for a value or a block. -/
def Word.isMention : Word → Bool
  | .lexeme _ => false
  | .result _ => true
  | .operand _ => true
  | .block _ => true

def punctuation : List Lexeme := [EQUALS, COMMA, OPEN_PAREN, CLOSE_PAREN]

/-- A word that stands for a value or a block ends the line, or a word as in `P` comes after it. -/
def Follows (P : Word → Lexeme → Prop) : List Word → Prop
  | [] => True
  | w :: ws => (w.isMention = true → ∀ next ∈ ws.head?, ∃ l, next = .lexeme l ∧ P w l) ∧ Follows P ws

/-- The operand of a conversion. -/
def Insn.castOperand : Insn → Option Value
  | bitCast val _ => some val
  | ptrToInt ptr _ => some ptr
  | zExt val _ => some val
  | sExt val _ => some val
  | trunc val _ => some val
  | sIToFP val _ => some val
  | addrSpaceCast val _ => some val
  | _ => none

theorem IntArithmeticOp.word_eq (op : IntArithmeticOp) : ∃ l, op.word = .lexeme l := by
  cases op <;> exact ⟨_, rfl⟩

theorem BinaryOp.word_eq (op : BinaryOp) : ∃ l, op.word = .lexeme l := by
  cases op with
  | int op => exact op.word_eq
  | _ => exact ⟨_, rfl⟩

theorem IntPredicate.word_eq (op : IntPredicate) : ∃ l, op.word = .lexeme l := by
  cases op <;> exact ⟨_, rfl⟩

theorem FloatPredicate.word_eq (op : FloatPredicate) : ∃ l, op.word = .lexeme l := by
  cases op <;> exact ⟨_, rfl⟩

/-- The words that an operation gives to `addInsn`. -/
def Insn.line (insn : Insn) (label : Nat → Name) (dbLocation : Option Lexeme) (reg : Name) : List Word :=
  if insn.resultTy.isSome then .result reg :: (insn.words label ++ dbWords dbLocation)
  else insn.words label ++ dbWords dbLocation

/-- After the register comes `=`. -/
theorem Insn.words_result (insn : Insn) (label : Nat → Name) (h : insn.resultTy.isSome = true) :
    ∃ ws, insn.words label = .lexeme EQUALS :: ws := by
  cases insn with
  | call retType fn args =>
    cases retType with
    | none => cases h
    | some ty => exact ⟨_, rfl⟩
  | store val ptr align => cases h
  | ret value => cases h
  | unreachable => cases h
  | br destination => cases h
  | condBr condition ifTrue ifFalse => cases h
  | _ => exact ⟨_, rfl⟩

section Follows

variable {P : Word → Lexeme → Prop}

theorem follows_lexeme {l : Lexeme} {ws : List Word} (h : Follows P ws) : Follows P (.lexeme l :: ws) :=
  ⟨fun hmention => (by cases hmention), h⟩

theorem follows_next {w : Word} {l : Lexeme} {ws : List Word} (hP : P w l) (h : Follows P ws) :
    Follows P (w :: .lexeme l :: ws) := by
  refine ⟨fun _ next hnext => ⟨l, ?_, hP⟩, follows_lexeme h⟩
  exact (Option.some.inj hnext).symm

/-- What comes after the words of an operation. -/
def Tail (P : Word → Lexeme → Prop) (rest : List Word) : Prop :=
  Follows P rest ∧ ∀ next ∈ rest.head?, ∃ l ∈ punctuation, next = .lexeme l

variable {rest : List Word}

theorem follows_tail (hP : ∀ w, ∀ l ∈ punctuation, P w l) {w : Word} (h : Tail P rest) :
    Follows P (w :: rest) := by
  refine ⟨fun _ next hnext => ?_, h.1⟩
  obtain ⟨l, hl, heq⟩ := h.2 next hnext
  exact ⟨l, heq, hP w l hl⟩

theorem tail_cons {l : Lexeme} (hl : l ∈ punctuation) (h : Follows P rest) :
    Tail P (.lexeme l :: rest) :=
  ⟨follows_lexeme h, fun _ hnext => ⟨l, hl, (Option.some.inj hnext).symm⟩⟩

theorem comma_mem : COMMA ∈ punctuation := by decide
theorem equals_mem : EQUALS ∈ punctuation := by decide
theorem openParen_mem : OPEN_PAREN ∈ punctuation := by decide
theorem closeParen_mem : CLOSE_PAREN ∈ punctuation := by decide

theorem tail_dbWords (dbLocation : Option Lexeme) : Tail P (dbWords dbLocation) := by
  cases dbLocation with
  | none => exact ⟨trivial, fun _ hnext => by cases hnext⟩
  | some l => exact tail_cons comma_mem (follows_lexeme (follows_lexeme trivial))

theorem tail_alignWords (align : Option Nat) (h : Tail P rest) : Tail P (alignWords align ++ rest) := by
  cases align with
  | none => exact h
  | some n => exact tail_cons comma_mem (follows_lexeme (follows_lexeme h.1))

variable (hP : ∀ w, ∀ l ∈ punctuation, P w l)
include hP

theorem follows_binaryWords (lhs rhs : Value) (h : Tail P rest) :
    Follows P (binaryWords lhs rhs ++ rest) :=
  follows_lexeme (follows_tail hP (tail_cons comma_mem (follows_tail hP h)))

theorem tail_argWords (args : List Value) (h : Tail P rest) :
    ∀ i : Nat, Follows P (argWords i args ++ rest) ∧ (0 < i → Tail P (argWords i args ++ rest)) := by
  induction args with
  | nil => exact fun i => ⟨h.1, fun _ => h⟩
  | cons arg args ih =>
    intro i
    have hrest : Follows P (.lexeme arg.ty :: arg.word :: (argWords (i + 1) args ++ rest)) :=
      follows_lexeme (follows_tail hP ((ih (i + 1)).2 (Nat.succ_pos i)))
    unfold argWords
    split
    next hi => exact ⟨follows_lexeme hrest, fun _ => tail_cons comma_mem hrest⟩
    next hi => exact ⟨hrest, fun hpos => absurd hpos hi⟩

theorem tail_indices (indices : List Value) (h : Tail P rest) :
    Tail P ((indices.flatMap fun index => [.lexeme COMMA, .lexeme index.ty, index.word]) ++ rest) := by
  induction indices with
  | nil => exact h
  | cons index indices ih => exact tail_cons comma_mem (follows_lexeme (follows_tail hP ih))

/-- After a mention comes punctuation; after the operand of a conversion, `to`. -/
theorem follows_words (insn : Insn) (hcast : ∀ val, insn.castOperand = some val → P val.word TO)
    (label : Nat → Name) (h : Tail P rest) : Follows P (insn.words label ++ rest) := by
  have hcastWords : ∀ (opcode : Lexeme) (val : Value) (destTy : Lexeme), P val.word TO →
      Follows P (castWords (.lexeme opcode) val destTy ++ rest) := by
    intro opcode val destTy hto
    exact follows_lexeme (follows_lexeme (follows_lexeme (follows_next hto (follows_lexeme h.1))))
  cases insn with
  | alloca ty align => exact follows_lexeme (follows_lexeme (follows_lexeme (tail_alignWords align h).1))
  | load pointsTo ptr align =>
    exact follows_lexeme (follows_lexeme (follows_lexeme (follows_lexeme (follows_lexeme
      (follows_tail hP (tail_alignWords align h))))))
  | store val ptr align =>
    exact follows_lexeme (follows_lexeme (follows_tail hP (tail_cons comma_mem (follows_lexeme
      (follows_tail hP (tail_alignWords align h))))))
  | binaryOpWrap op lhs rhs =>
    obtain ⟨l, hl⟩ := op.word_eq
    rw [Insn.words, hl]
    exact follows_lexeme (follows_lexeme (follows_binaryWords hP lhs rhs h))
  | iArithmeticNoWrap op lhs rhs =>
    obtain ⟨l, hl⟩ := op.word_eq
    rw [Insn.words, hl]
    exact follows_lexeme (follows_lexeme (follows_lexeme (follows_binaryWords hP lhs rhs h)))
  | iCmp op lhs rhs =>
    obtain ⟨l, hl⟩ := op.word_eq
    rw [Insn.words, hl]
    exact follows_lexeme (follows_lexeme (follows_lexeme (follows_binaryWords hP lhs rhs h)))
  | fCmp op lhs rhs =>
    obtain ⟨l, hl⟩ := op.word_eq
    rw [Insn.words, hl]
    exact follows_lexeme (follows_lexeme (follows_lexeme (follows_binaryWords hP lhs rhs h)))
  | bitCast val destTy => exact hcastWords _ val destTy (hcast val rfl)
  | ret value =>
    cases value with
    | none => exact follows_lexeme (follows_lexeme h.1)
    | some value => exact follows_lexeme (follows_lexeme (follows_tail hP h))
  | ptrToInt ptr destTy => exact hcastWords _ ptr destTy (hcast ptr rfl)
  | zExt val destTy => exact hcastWords _ val destTy (hcast val rfl)
  | sExt val destTy => exact hcastWords _ val destTy (hcast val rfl)
  | trunc val destinationType => exact hcastWords _ val destinationType (hcast val rfl)
  | fNeg val => exact follows_lexeme (follows_lexeme (follows_lexeme (follows_tail hP h)))
  | sIToFP val destTy => exact hcastWords _ val destTy (hcast val rfl)
  | unreachable => exact follows_lexeme h.1
  | call retType fn args =>
    have hargs : Follows P (argWords 0 args ++ .lexeme CLOSE_PAREN :: rest) :=
      (tail_argWords hP args (tail_cons closeParen_mem h.1) 0).1
    have hfn : Follows P (fn.word :: .lexeme OPEN_PAREN :: (argWords 0 args ++ .lexeme CLOSE_PAREN :: rest)) :=
      follows_tail hP (tail_cons openParen_mem hargs)
    rw [Insn.words, buildFunctionCallBody, List.append_assoc, List.append_assoc, List.append_assoc]
    cases retType with
    | none => exact follows_lexeme (follows_lexeme hfn)
    | some ty => exact follows_lexeme (follows_lexeme (follows_lexeme hfn))
  | extractValue value index elementType =>
    exact follows_lexeme (follows_lexeme (follows_lexeme (follows_tail hP (tail_cons comma_mem (follows_lexeme h.1)))))
  | br destination => exact follows_lexeme (follows_lexeme (follows_tail hP h))
  | condBr condition ifTrue ifFalse =>
    exact follows_lexeme (follows_lexeme (follows_tail hP (tail_cons comma_mem (follows_lexeme
      (follows_tail hP (tail_cons comma_mem (follows_lexeme (follows_tail hP h))))))))
  | getElementPtr pointsTo ptr indices inbounds destTy =>
    have hgep : Follows P (gepArgs pointsTo ptr indices ++ rest) :=
      follows_lexeme (follows_lexeme (follows_lexeme (follows_tail hP (tail_indices hP indices h))))
    rw [Insn.words, List.append_assoc, List.append_assoc]
    cases inbounds with
    | false => exact follows_lexeme (follows_lexeme hgep)
    | true => exact follows_lexeme (follows_lexeme (follows_lexeme hgep))
  | addrSpaceCast val destTy => exact hcastWords _ val destTy (hcast val rfl)

/-- The same of the whole line. -/
theorem follows_line (insn : Insn) (hcast : ∀ val, insn.castOperand = some val → P val.word TO)
    (label : Nat → Name) (dbLocation : Option Lexeme) (reg : Name) : Follows P (insn.line label dbLocation reg) := by
  have hwords := follows_words hP insn hcast label (tail_dbWords dbLocation)
  unfold Insn.line
  split
  next hresult =>
    obtain ⟨ws, hws⟩ := insn.words_result label hresult
    rw [hws] at hwords ⊢
    exact follows_tail hP (tail_cons equals_mem hwords.2)
  next => exact hwords

end Follows

/-! ## What is mentioned -/

/-- A word is one of the values, the name of one of the blocks, or stands for neither. -/
def Stands (values : List Value) (labels : List Name) (w : Word) : Prop :=
  (∃ l, w = .lexeme l) ∨ (∃ val ∈ values, w = val.word) ∨ ∃ label ∈ labels, w = .block label

section Stands

variable {values : List Value} {labels : List Name}

theorem stands_lexeme (l : Lexeme) : Stands values labels (.lexeme l) := .inl ⟨l, rfl⟩

theorem stands_keyword (s : String) (h : Solid s.toList) : Stands values labels (keyword s h) := stands_lexeme _

theorem stands_value {val : Value} (h : val ∈ values) : Stands values labels val.word := .inr (.inl ⟨val, h, rfl⟩)

theorem stands_block {label : Name} (h : label ∈ labels) : Stands values labels (.block label) :=
  .inr (.inr ⟨label, h, rfl⟩)

theorem stands_op {w : Word} (h : ∃ l, w = .lexeme l) : Stands values labels w := .inl h

theorem stands_alignWords (align : Option Nat) : ∀ w ∈ alignWords align, Stands values labels w := by
  cases align with
  | none => exact List.forall_mem_nil _
  | some n =>
    simp only [alignWords, List.forall_mem_cons]
    exact ⟨stands_lexeme _, stands_keyword _ _, stands_lexeme _, List.forall_mem_nil _⟩

theorem stands_argWords (args : List Value) (hargs : ∀ arg ∈ args, arg ∈ values) :
    ∀ i : Nat, ∀ w ∈ argWords i args, Stands values labels w := by
  induction args with
  | nil => exact fun i => List.forall_mem_nil _
  | cons arg args ih =>
    intro i w hw
    rcases List.mem_append.mp hw with hw | hw
    · rcases List.mem_append.mp hw with hw | hw
      · split at hw
        next => exact .inl ⟨_, List.mem_singleton.mp hw⟩
        next => exact absurd hw List.not_mem_nil
      · rcases List.mem_cons.mp hw with hw | hw
        · exact .inl ⟨_, hw⟩
        · rw [List.mem_singleton.mp hw]
          exact stands_value (hargs arg (.head _))
    · exact ih (fun arg' harg => hargs arg' (.tail _ harg)) (i + 1) w hw

theorem stands_indices (indices : List Value) (hindices : ∀ index ∈ indices, index ∈ values) :
    ∀ w ∈ indices.flatMap (fun index => [.lexeme COMMA, .lexeme index.ty, index.word]), Stands values labels w := by
  intro w hw
  obtain ⟨index, hindex, hw⟩ := List.mem_flatMap.mp hw
  simp only [List.mem_cons, List.not_mem_nil, or_false] at hw
  rcases hw with rfl | rfl | rfl
  · exact stands_lexeme _
  · exact stands_lexeme _
  · exact stands_value (hindices index hindex)

end Stands

/-- The words of an operation stand for its values and its blocks. -/
theorem stands_words (insn : Insn) (label : Nat → Name) :
    ∀ w ∈ insn.words label, Stands insn.values (insn.destinations.map label) w := by
  cases insn with
  | call retType fn args =>
    have hargs : ∀ w ∈ argWords 0 args, Stands (fn :: args) [] w :=
      stands_argWords args (fun arg h => .tail _ h) 0
    cases retType <;>
      simp only [Insn.words, buildFunctionCallBody, Insn.values, Insn.destinations, Option.isSome, Option.elim,
        List.forall_mem_append, List.forall_mem_cons, List.map_nil, if_true, if_false, Bool.false_eq_true] <;>
      simp only [stands_lexeme, stands_keyword, stands_value (.head _), List.not_mem_nil, false_imp_iff,
        implies_true, and_true, true_and] <;>
      exact hargs
  | getElementPtr pointsTo ptr indices inbounds destTy =>
    have hindices : ∀ w ∈ indices.flatMap (fun index => [.lexeme COMMA, .lexeme index.ty, index.word]),
        Stands (ptr :: indices) [] w := stands_indices indices fun index h => .tail _ h
    cases inbounds <;>
      simp only [Insn.words, gepArgs, Insn.values, Insn.destinations, List.forall_mem_append, List.forall_mem_cons,
        List.map_nil, if_true, if_false, Bool.false_eq_true] <;>
      simp only [stands_lexeme, stands_keyword, stands_value (.head _), List.not_mem_nil, false_imp_iff,
        implies_true, and_true, true_and] <;>
      exact hindices
  | ret value =>
    cases value with
    | none =>
      simp only [Insn.words, List.forall_mem_cons]
      exact ⟨stands_keyword _ _, stands_keyword _ _, List.forall_mem_nil _⟩
    | some value =>
      simp only [Insn.words, List.forall_mem_cons]
      exact ⟨stands_keyword _ _, stands_lexeme _, stands_value (.head _), List.forall_mem_nil _⟩
  | alloca ty align =>
    simp only [Insn.words, List.forall_mem_append, List.forall_mem_cons]
    exact ⟨⟨stands_lexeme _, stands_keyword _ _, stands_lexeme _, List.forall_mem_nil _⟩, stands_alignWords align⟩
  | load pointsTo ptr align =>
    simp only [Insn.words, List.forall_mem_append, List.forall_mem_cons]
    exact ⟨⟨stands_lexeme _, stands_keyword _ _, stands_lexeme _, stands_lexeme _, stands_lexeme _,
      stands_value (.head _), List.forall_mem_nil _⟩, stands_alignWords align⟩
  | store val ptr align =>
    simp only [Insn.words, List.forall_mem_append, List.forall_mem_cons]
    exact ⟨⟨stands_keyword _ _, stands_lexeme _, stands_value (.head _), stands_lexeme _, stands_lexeme _,
      stands_value (.tail _ (.head _)), List.forall_mem_nil _⟩, stands_alignWords align⟩
  | _ =>
    simp only [Insn.words, Insn.values, Insn.destinations, castWords, binaryWords, numberWord, List.cons_append,
      List.nil_append, List.forall_mem_cons, List.map_cons, List.map_nil]
    simp only [stands_lexeme, stands_keyword, stands_value, stands_block, stands_op, BinaryOp.word_eq,
      IntArithmeticOp.word_eq, IntPredicate.word_eq, FloatPredicate.word_eq, List.mem_cons, true_or, or_true,
      List.not_mem_nil, false_imp_iff, implies_true, and_true]

/-- A conversion has `to` after its operand. -/
theorem castOperand_words {insn : Insn} {val : Value} (h : insn.castOperand = some val) (label : Nat → Name) :
    ∃ opcode destTy, insn.words label = castWords (.lexeme opcode) val destTy ∧ insn.resultTy.isSome = true := by
  cases insn <;> first
    | (obtain rfl := Option.some.inj h; exact ⟨_, _, rfl, rfl⟩)
    | cases h

end Nballerina.PrintLlvm
