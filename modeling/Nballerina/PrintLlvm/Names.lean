import Mathlib.Data.List.Nodup
import Mathlib.Data.List.Perm.Subperm
import Nballerina.PrintLlvm.Builder

/-!
# Names given out (`print.llvm`)

A name that `genName` gives was not in use before, whatever was asked for, and so the parameters, the
results of the operations and the blocks of a function have different names at any time (`Built`).
-/

namespace Nballerina.PrintLlvm

/-! ## `genName` -/

theorem hasKey_iff {variableNames : List (Text × Nat)} {name : Text} :
    hasKey variableNames name = true ↔ name ∈ variableNames.map Prod.fst := by
  unfold hasKey
  induction variableNames with
  | nil =>
    refine ⟨fun h => ?_, fun h => absurd h List.not_mem_nil⟩
    cases h
  | cons entry variableNames ih =>
    obtain ⟨key, count⟩ := entry
    rw [List.map_cons, List.mem_cons, ← ih, List.lookup_cons]
    cases hkey : name == key with
    | true => exact ⟨fun _ => .inl (eq_of_beq hkey), fun _ => rfl⟩
    | false => exact ⟨.inr, fun h => h.resolve_left (ne_of_beq_false hkey)⟩

theorem numberedName_injective (varName : Text) : Function.Injective (numberedName varName) := by
  intro a b h
  exact toDigits_injective (List.cons.inj (List.append_cancel_left h)).2

/-- If the loop ends at a name in use, all that it came by are in use. -/
theorem hasKey_freshName {variableNames : List (Text × Nat)} {varName : Text} (rounds : Nat) : ∀ (count : Nat),
    hasKey variableNames (freshName variableNames varName rounds count) = true →
    ∀ i ≤ rounds, hasKey variableNames (numberedName varName (count + i)) = true := by
  induction rounds with
  | zero =>
    intro count h i hi
    rwa [Nat.le_zero.mp hi]
  | succ rounds ih =>
    intro count h i hi
    rw [freshName] at h
    split at h
    next hcount =>
      rcases Nat.eq_zero_or_pos i with rfl | hpos
      · exact hcount
      · have := ih (count + 1) h (i - 1) (by omega)
        rwa [show count + 1 + (i - 1) = count + i by omega] at this
    next hcount => exact absurd h hcount

theorem freshName_fresh (variableNames : List (Text × Nat)) (varName : Text) (count : Nat) :
    hasKey variableNames (freshName variableNames varName variableNames.length count) = false := by
  by_contra h
  have hall := hasKey_freshName _ _ (eq_true_of_ne_false h)
  -- more names than there are keys
  have hnodup : ((List.range (variableNames.length + 1)).map fun i => numberedName varName (count + i)).Nodup :=
    List.Nodup.map (fun a b hab => Nat.add_left_cancel (numberedName_injective varName hab)) List.nodup_range
  have hsubset : ((List.range (variableNames.length + 1)).map fun i => numberedName varName (count + i)) ⊆
      variableNames.map Prod.fst := by
    intro name hname
    obtain ⟨i, hi, rfl⟩ := List.mem_map.mp hname
    exact hasKey_iff.mp (hall i (Nat.lt_succ_iff.mp (List.mem_range.mp hi)))
  have hlen := (hnodup.subperm hsubset).length_le
  rw [List.length_map, List.length_range, List.length_map] at hlen
  omega

/-- A name with a text is a new key, an unnamed one the next number. -/
theorem genName_cases (f : FunctionDefn) (name : Option Text) :
    (∃ raw variableNames, f.genName name = (.text (escapeIdent raw), { f with variableNames := variableNames }) ∧
      hasKey f.variableNames raw = false ∧
      ∀ key, hasKey f.variableNames key = true ∨ key = raw → hasKey variableNames key = true) ∨
    f.genName name = (.unnamed f.unnamedLabelCount, { f with unnamedLabelCount := f.unnamedLabelCount + 1 }) := by
  cases name with
  | none => exact .inr rfl
  | some varName =>
    left
    have hcons : ∀ (variableNames : List (Text × Nat)) (entry : Text × Nat) (key : Text),
        hasKey variableNames key = true ∨ key = entry.1 → hasKey (entry :: variableNames) key = true := by
      intro variableNames entry key h
      rw [hasKey_iff, List.map_cons, List.mem_cons]
      rcases h with h | h
      · exact .inr (hasKey_iff.mp h)
      · exact .inl h
    cases hlookup : f.variableNames.lookup varName with
    | none =>
      refine ⟨varName, (varName, 1) :: f.variableNames, ?_, ?_, fun key h => hcons _ _ _ h⟩
      · simp only [FunctionDefn.genName, hlookup]
      · rw [hasKey, hlookup]
        rfl
    | some count =>
      refine ⟨freshName ((varName, count + 1) :: f.variableNames) varName
        ((varName, count + 1) :: f.variableNames).length count,
        (freshName ((varName, count + 1) :: f.variableNames) varName
          ((varName, count + 1) :: f.variableNames).length count, 1) :: (varName, count + 1) :: f.variableNames,
        ?_, ?_, ?_⟩
      · simp only [FunctionDefn.genName, hlookup]
      · have hfresh := freshName_fresh ((varName, count + 1) :: f.variableNames) varName count
        by_contra h
        rw [hcons _ _ _ (.inl (eq_true_of_ne_false h))] at hfresh
        cases hfresh
      · intro key h
        rcases h with h | h
        · exact hcons _ _ _ (.inl (hcons _ _ _ (.inl h)))
        · exact hcons _ _ _ (.inr h)

/-! ## What a new name leaves as it is -/

/-- A name, with its `%`, that a function has given out or is known to keep for a parameter. -/
def FunctionDefn.Issued (f : FunctionDefn) (name : Name) : Prop :=
  (∃ i < f.paramTypes.length, name = .text ('%' :: Nat.toDigits 10 i)) ∨
    (∃ raw, hasKey f.variableNames raw = true ∧ name = .text ('%' :: escapeIdent raw)) ∨
    ∃ n < f.unnamedLabelCount, name = .unnamed n

/-- A new name for a block (`flag`) or for a value. -/
structure Named (f : FunctionDefn) (flag : Bool) (name : Name) (f' : FunctionDefn) : Prop where
  fresh : ¬f.Issued name
  issued : ∀ other, f.Issued other ∨ other = name → f'.Issued other
  paramTypes : f'.paramTypes = f.paramTypes
  basicBlocks : f'.basicBlocks = f.basicBlocks
  values : f'.values = f.values
  count : f'.isBasicBlock.length = f'.unnamedLabelCount
  marks : ∀ (n : Nat) (flag' : Bool), f.isBasicBlock[n]? = some flag' → f'.isBasicBlock[n]? = some flag'
  marked : ∀ n : Nat, name = .unnamed n → f'.isBasicBlock[n]? = some flag

/-- `genName`, and the mark that its callers make. -/
def FunctionDefn.genMarked (f : FunctionDefn) (flag : Bool) (name : Option Text) : Name × FunctionDefn :=
  match f.genName name with
  | (.text s, f) => (.text s, f)
  | (.unnamed n, f) => (.unnamed n, { f with isBasicBlock := arraySet false f.isBasicBlock n flag })

theorem genReg_eq (f : FunctionDefn) (name : Option Text) :
    f.genReg name = (ref (f.genMarked false name).1, (f.genMarked false name).2) := by
  unfold FunctionDefn.genReg FunctionDefn.genMarked
  cases hname : f.genName name with
  | mk s f' =>
    cases s with
    | text s => rfl
    | unnamed n => rfl

theorem appendBasicBlock_eq (f : FunctionDefn) (name : Option Text) :
    f.appendBasicBlock name =
      { (f.genMarked true name).2 with
        basicBlocks := (f.genMarked true name).2.basicBlocks ++ [⟨(f.genMarked true name).1, [], false⟩] } := by
  unfold FunctionDefn.appendBasicBlock FunctionDefn.genMarked
  cases hname : f.genName name with
  | mk s f' =>
    cases s with
    | text s => rfl
    | unnamed n => rfl

theorem arraySet_length {α : Type} (filler : α) (array : List α) (value : α) :
    arraySet filler array array.length value = array ++ [value] := by
  rw [arraySet, if_neg (Nat.lt_irrefl _), Nat.sub_self, List.replicate_zero, List.append_nil]

theorem genMarked_named {f : FunctionDefn} (hcount : f.isBasicBlock.length = f.unnamedLabelCount) (flag : Bool)
    (name : Option Text) : Named f flag (ref (f.genMarked flag name).1) (f.genMarked flag name).2 := by
  rcases genName_cases f name with ⟨raw, variableNames, heq, hfresh, hkeys⟩ | heq
  · rw [FunctionDefn.genMarked, heq]
    refine
      { fresh := ?_
        issued := ?_
        paramTypes := rfl
        basicBlocks := rfl
        values := rfl
        count := hcount
        marks := fun n flag' h => h
        marked := fun n h => Name.noConfusion h }
    · rintro (⟨i, -, h⟩ | ⟨raw', hraw', h⟩ | ⟨n, -, h⟩)
      · exact escapeIdent_ne_toDigits raw i (List.cons.inj (Name.text.inj h)).2
      · rw [escapeIdent_injective (List.cons.inj (Name.text.inj h)).2, hraw'] at hfresh
        cases hfresh
      · cases h
    · rintro other ((h | ⟨raw', hraw', h⟩ | h) | h)
      · exact .inl h
      · exact .inr (.inl ⟨raw', hkeys raw' (.inl hraw'), h⟩)
      · exact .inr (.inr h)
      · exact .inr (.inl ⟨raw, hkeys raw (.inr rfl), h⟩)
  · rw [FunctionDefn.genMarked, heq]
    have hset : arraySet false f.isBasicBlock f.unnamedLabelCount flag = f.isBasicBlock ++ [flag] := by
      rw [← hcount, arraySet_length]
    refine
      { fresh := ?_
        issued := ?_
        paramTypes := rfl
        basicBlocks := rfl
        values := rfl
        count := ?_
        marks := fun n flag' h => ?_
        marked := fun n h => ?_ }
    · rintro (⟨i, -, h⟩ | ⟨raw', -, h⟩ | ⟨n, hn, h⟩)
      · cases h
      · cases h
      · rw [Name.unnamed.inj h] at hn
        exact Nat.lt_irrefl _ hn
    · rintro other ((h | h | ⟨n, hn, h⟩) | h)
      · exact .inl h
      · exact .inr (.inl h)
      · exact .inr (.inr ⟨n, Nat.lt_succ_of_lt hn, h⟩)
      · exact .inr (.inr ⟨_, Nat.lt_succ_self _, h⟩)
    · simp only [hset, List.length_append, List.length_singleton, hcount]
    · simp only [hset]
      have hlen : n < f.isBasicBlock.length := (List.getElem?_eq_some_iff.mp h).1
      rwa [List.getElem?_append_left hlen]
    · obtain rfl := Name.unnamed.inj h
      simp only [hset]
      rw [← hcount, List.getElem?_append_right (Nat.le_refl _), Nat.sub_self]
      rfl

end Nballerina.PrintLlvm
