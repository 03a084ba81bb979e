import Nballerina.Lib.OpenTable
import Nballerina.Runtime.Mapping

/-!
# The table of a mapping

`TableValid`: the table is a hash table with linear probing for the given home slots
(`Lib.OpenTable`), and its elements are wide enough for the indices. One lemma for each
function of the table: the two lookups find an entry or the first empty slot, `insert`
puts a new index there, and `growTable` gives an empty table that `rebuild` fills again.
-/

namespace Nballerina.Runtime

open Nballerina.Lib Nballerina.Lib.OpenTable

variable {K M : Type}

/-- What is in slot `i`. -/
def Mapping.slot (m : Mapping K M) (i : Nat) : Option Nat := do
  let p ← m.table[i]?
  if p = emptyMarker m.tableElementShift then none else some p

/-- The slot at which the search for a hash begins. -/
def homeSlot (tableLengthShift : Nat) (hash : Word) : Nat := hash.toNat % 2 ^ tableLengthShift

theorem homeSlot_lt (t : Nat) (hash : Word) : homeSlot t hash < 2 ^ t :=
  Nat.mod_lt _ (Nat.two_pow_pos t)

/-- The elements are wide enough for the indices up to half the number of slots. -/
structure ShiftsValid (m : Mapping K M) : Prop where
  shift_pos : 0 < m.tableLengthShift
  shift_le : m.tableLengthShift ≤ 30
  element_le : m.tableElementShift ≤ 2
  fits : m.tableLengthShift - 1 ≤ elementBits m.tableElementShift

/-- The invariant of the table, for entries with the given homes. -/
structure TableValid (m : Mapping K M) (home : List Nat) : Prop extends ShiftsValid m where
  length : m.table.length = 2 ^ m.tableLengthShift
  width : ∀ p ∈ m.table, p < 2 ^ elementBits m.tableElementShift
  valid : Valid (2 ^ m.tableLengthShift) m.slot home

theorem intShift_eq {n : Nat} (h : n ≤ 30) : intShift n = some (2 ^ n) := by
  rw [intShift, if_pos (by omega), Nat.shiftLeft_eq, Nat.one_mul]

theorem fetch_eq {m : Mapping K M} {i : Nat} (hi : i < m.table.length) :
    fetch m.table i m.tableElementShift =
      some ((m.slot i).elim (-1) fun j => (j : Int)) := by
  unfold fetch Mapping.slot
  rw [List.getElem?_eq_getElem hi]
  simp only [Option.bind_eq_bind, Option.bind_some]
  split
  next => rfl
  next => rfl

/-- The mask takes the hash modulo the table's length. -/
theorem and_tableIndexMax (hash : Word) {t : Nat} (ht : t ≤ 30) :
    (hash &&& BitVec.ofNat 64 (2 ^ t - 1)).toNat = homeSlot t hash := by
  have hle : 2 ^ t ≤ 2 ^ 30 := Nat.pow_le_pow_right (by omega) ht
  rw [BitVec.toNat_and, BitVec.toNat_ofNat, Nat.mod_eq_of_lt (by omega),
    Nat.and_two_pow_sub_one_eq_mod, homeSlot]

section Lookup

variable {m : Mapping K M} {home : List Nat}

theorem next_eq (N i : Nat) : (if i = 0 then N - 1 else i - 1) = next N i := rfl

/-- The search for a free slot, from `d` steps on. -/
theorem lookupDistinctLoop_eq (hlen : m.table.length = 2 ^ m.tableLengthShift) {s d0 : Nat}
    (hs : s < 2 ^ m.tableLengthShift)
    (hd0 : FirstEmpty (2 ^ m.tableLengthShift) m.slot s d0) {rounds d : Nat} (hd : d ≤ d0)
    (hrounds : d0 < d + rounds) :
    m.lookupDistinctLoop (2 ^ m.tableLengthShift - 1) rounds
      (probe (2 ^ m.tableLengthShift) s d) =
      some (-(probe (2 ^ m.tableLengthShift) s d0 : Int) - 1) := by
  induction rounds generalizing d with
  | zero => omega
  | succ rounds ih =>
    have hlt := hd0.lt
    rw [Mapping.lookupDistinctLoop, fetch_eq (by rw [hlen]; exact probe_lt hs (by omega))]
    rcases Nat.lt_or_eq_of_le hd with hd | rfl
    · cases hslot : m.slot (probe (2 ^ m.tableLengthShift) s d) with
      | none => exact absurd hslot (hd0.before d hd)
      | some j =>
        simp only [Option.bind_eq_bind, Option.bind_some, Option.elim_some]
        rw [if_neg (by omega), next_eq, ← probe_succ (by omega)]
        exact ih (by omega) (by omega)
    · rw [hd0.empty]
      rfl

theorem lookupDistinct_eq (hv : TableValid m home) {hash : Word} {d : Nat}
    (hd : FirstEmpty (2 ^ m.tableLengthShift) m.slot (homeSlot m.tableLengthShift hash) d) :
    m.lookupDistinct hash = some (-(probe (2 ^ m.tableLengthShift)
      (homeSlot m.tableLengthShift hash) d : Int) - 1) := by
  unfold Mapping.lookupDistinct
  rw [intShift_eq hv.shift_le, Option.bind_eq_bind, Option.bind_some]
  dsimp only
  rw [and_tableIndexMax hash hv.shift_le]
  have := lookupDistinctLoop_eq hv.length (homeSlot_lt _ hash) hd (Nat.zero_le d)
    (by have := hd.lt; omega : d < 0 + 2 ^ m.tableLengthShift)
  rwa [probe_zero] at this

/-- The search for a key, from `d` steps on: it ends at a field that matches or at the
first empty slot. -/
theorem lookupLoop_cases (hv : TableValid m home) (hhome : home.length = m.fields.length)
    (eq : K → K → Bool) (key : K) {s d0 : Nat} (hs : s < 2 ^ m.tableLengthShift)
    (hd0 : FirstEmpty (2 ^ m.tableLengthShift) m.slot s d0) {rounds d : Nat} (hd : d ≤ d0)
    (hrounds : d0 < d + rounds) :
    (∃ (j : Nat) (hj : j < m.fields.length), eq m.fields[j].key key = true ∧
      m.lookupLoop eq key (2 ^ m.tableLengthShift - 1) rounds
        (probe (2 ^ m.tableLengthShift) s d) = some (j : Int)) ∨
    ((∀ d', d ≤ d' → d' < d0 → ∀ j (hj : j < m.fields.length),
        m.slot (probe (2 ^ m.tableLengthShift) s d') = some j →
        ¬ eq m.fields[j].key key = true) ∧
      m.lookupLoop eq key (2 ^ m.tableLengthShift - 1) rounds
        (probe (2 ^ m.tableLengthShift) s d) =
        some (-(probe (2 ^ m.tableLengthShift) s d0 : Int) - 1)) := by
  induction rounds generalizing d with
  | zero => omega
  | succ rounds ih =>
    have hlt := hd0.lt
    have hp : probe (2 ^ m.tableLengthShift) s d < 2 ^ m.tableLengthShift :=
      probe_lt hs (by omega)
    rw [Mapping.lookupLoop, fetch_eq (by rwa [hv.length])]
    rcases Nat.lt_or_eq_of_le hd with hd | rfl
    · cases hslot : m.slot (probe (2 ^ m.tableLengthShift) s d) with
      | none => exact absurd hslot (hd0.before d hd)
      | some j =>
        have hj : j < m.fields.length := by
          rw [← hhome]
          exact hv.valid.entry_lt _ hp j hslot
        simp only [Option.bind_eq_bind, Option.bind_some, Option.elim_some]
        rw [if_neg (by omega), Int.toNat_natCast, Mapping.matches, List.getElem?_eq_getElem hj]
        simp only [Option.bind_eq_bind, Option.bind_some]
        by_cases hmatch : eq m.fields[j].key key = true
        · exact Or.inl ⟨j, hj, hmatch, if_pos hmatch⟩
        · rw [if_neg hmatch, next_eq, ← probe_succ (by omega)]
          rcases ih (by omega : d + 1 ≤ d0) (by omega) with hfound | ⟨hnone, hres⟩
          · exact Or.inl hfound
          · refine Or.inr ⟨fun d' hge hlt' j' hj' hslot' => ?_, hres⟩
            rcases Nat.lt_or_eq_of_le hge with hgt | heq
            · exact hnone d' hgt hlt' j' hj' hslot'
            · rw [← heq, hslot] at hslot'
              cases hslot'
              exact hmatch
    · refine Or.inr ⟨fun d' hge hlt' => absurd hlt' (by omega), ?_⟩
      rw [hd0.empty]
      rfl

/-- What a lookup finds: a field with an equal key, or the slot for a key that is not
there. The home of a field is that of its key's hash. -/
theorem lookup_cases {H : K → Word}
    (hv : TableValid m (m.fields.map fun f => homeSlot m.tableLengthShift (H f.key)))
    (hlen : m.fields.length < 2 ^ m.tableLengthShift) (eq : K → K → Bool) (key : K)
    (hhash : ∀ f ∈ m.fields, eq f.key key = true → H f.key = H key) :
    (∃ (j : Nat) (hj : j < m.fields.length), eq m.fields[j].key key = true ∧
      m.lookup eq key (H key) = some (j : Int)) ∨
    (∃ d, FirstEmpty (2 ^ m.tableLengthShift) m.slot (homeSlot m.tableLengthShift (H key)) d ∧
      (∀ f ∈ m.fields, ¬ eq f.key key = true) ∧
      m.lookup eq key (H key) = some (-(probe (2 ^ m.tableLengthShift)
        (homeSlot m.tableLengthShift (H key)) d : Int) - 1)) := by
  have hs := homeSlot_lt m.tableLengthShift (H key)
  obtain ⟨d, hd⟩ := hv.valid.exists_first_empty (by rwa [List.length_map]) hs
  have hcases := lookupLoop_cases hv (List.length_map _) eq key hs hd
    (Nat.zero_le d) (by have := hd.lt; omega : d < 0 + 2 ^ m.tableLengthShift)
  rw [probe_zero] at hcases
  have hlookup : m.lookup eq key (H key) = m.lookupLoop eq key (2 ^ m.tableLengthShift - 1)
      (2 ^ m.tableLengthShift) (homeSlot m.tableLengthShift (H key)) := by
    unfold Mapping.lookup
    rw [intShift_eq hv.shift_le, Option.bind_eq_bind, Option.bind_some]
    dsimp only
    rw [and_tableIndexMax _ hv.shift_le]
  rw [hlookup]
  rcases hcases with hfound | ⟨hnone, hres⟩
  · exact Or.inl hfound
  · refine Or.inr ⟨d, hd, fun f hf hmatch => ?_, hres⟩
    -- a field that matches has its home where the search began
    obtain ⟨j, hj, rfl⟩ := List.getElem_of_mem hf
    have hjh : j < (m.fields.map fun f => homeSlot m.tableLengthShift (H f.key)).length := by
      rwa [List.length_map]
    refine hv.valid.not_of_firstEmpty hd (P := fun j => ∃ hj : j < m.fields.length,
      eq m.fields[j].key key = true) (fun d' hd' j' hslot hP => ?_) hjh ?_ ⟨hj, hmatch⟩
    · obtain ⟨hj', hmatch'⟩ := hP
      exact hnone d' (Nat.zero_le d') hd' j' hj' hslot hmatch'
    · rw [List.getElem_map, hhash _ hf hmatch]

end Lookup

/-! ## Insertion -/

section Insert

variable {m : Mapping K M} {home : List Nat}

theorem emptyMarker_eq (t : Nat) : emptyMarker t + 1 = 2 ^ elementBits t := by
  have := Nat.two_pow_pos (elementBits t)
  unfold emptyMarker
  omega

/-- An index below half the number of slots is not the empty marker. -/
theorem TableValid.lt_emptyMarker (hv : TableValid m home) {n : Nat}
    (hn : n + 1 < 2 ^ (m.tableLengthShift - 1)) : n < emptyMarker m.tableElementShift := by
  have hpow : 2 ^ (m.tableLengthShift - 1) ≤ 2 ^ elementBits m.tableElementShift :=
    Nat.pow_le_pow_right (by omega) hv.fits
  have := emptyMarker_eq m.tableElementShift
  omega

/-- The slots after `put`. -/
theorem slot_set {i n : Nat} (hi : i < m.table.length) (hn : n < emptyMarker m.tableElementShift)
    (i' : Nat) : Mapping.slot { m with table := m.table.set i n } i' =
      if i' = i then some n else m.slot i' := by
  unfold Mapping.slot
  dsimp only
  by_cases h : i' = i
  · rw [if_pos h, h, List.getElem?_set_self hi]
    simp only [Option.bind_eq_bind, Option.bind_some]
    rw [if_neg (by omega)]
  · rw [if_neg h, List.getElem?_set_ne (fun he => h he.symm)]

/-- `insert` at a slot in the table always succeeds. -/
theorem insert_eq {i : Nat} (hi : i < m.table.length) (n : Nat) :
    m.insert (-(i : Int) - 1) n = some { m with
      table := m.table.set i (n % 2 ^ elementBits m.tableElementShift) } := by
  unfold Mapping.insert put
  rw [show (-(-(i : Int) - 1 + 1)).toNat = i by omega, if_pos hi]
  rfl

/-- A new entry in the first empty slot on its way. -/
theorem TableValid.insert (hv : TableValid m home) {s d : Nat}
    (hs : s < 2 ^ m.tableLengthShift) (hd : FirstEmpty (2 ^ m.tableLengthShift) m.slot s d)
    (hn : home.length < emptyMarker m.tableElementShift) :
    TableValid
      { m with
        table := (m.table.set (probe (2 ^ m.tableLengthShift) s d)
          (home.length % 2 ^ elementBits m.tableElementShift)) }
      (home ++ [s]) := by
  have hp := probe_lt hs hd.lt
  have hmark := emptyMarker_eq m.tableElementShift
  rw [Nat.mod_eq_of_lt (by omega)]
  refine ⟨⟨hv.shift_pos, hv.shift_le, hv.element_le, hv.fits⟩, ?_, fun p hp' => ?_, ?_⟩
  · rw [List.length_set, hv.length]
  · rcases List.mem_or_eq_of_mem_set hp' with h | h
    · exact hv.width p h
    · rw [h]
      show home.length < 2 ^ elementBits m.tableElementShift
      omega
  · have hslot := slot_set (by rwa [hv.length] : probe (2 ^ m.tableLengthShift) s d <
      m.table.length) hn
    refine hv.valid.insert hs hd ?_ fun i hi hne => ?_
    · rw [hslot, if_pos rfl]
    · rw [hslot, if_neg hne]

end Insert

/-! ## New tables -/

/-- A table just allocated is empty. -/
theorem ShiftsValid.allocTable {m : Mapping K M} (hv : ShiftsValid m) :
    TableValid m.allocTable [] := by
  have hlen : m.allocTable.table.length = 2 ^ m.tableLengthShift := by
    unfold Mapping.allocTable
    rw [List.length_replicate, Nat.shiftLeft_eq, Nat.one_mul]
  refine ⟨⟨hv.shift_pos, hv.shift_le, hv.element_le, hv.fits⟩, hlen, fun p hp => ?_,
    Valid.empty fun i hi => ?_⟩
  · have := emptyMarker_eq m.tableElementShift
    rw [List.eq_of_mem_replicate hp]
    show emptyMarker m.tableElementShift < 2 ^ elementBits m.tableElementShift
    omega
  · unfold Mapping.slot
    have hi : i < m.allocTable.table.length := by rwa [hlen]
    rw [List.getElem?_eq_getElem hi]
    have hmark : m.allocTable.table[i] = emptyMarker m.tableElementShift :=
      List.getElem_replicate _
    rw [hmark]
    exact if_pos rfl

theorem elementBits_of_le {t : Nat} (ht : t ≤ 2) : elementBits t = 8 * 2 ^ t := by
  rw [elementBits, Nat.mod_eq_of_lt (by omega), Nat.shiftLeft_eq]

/-- The element shift is increased when the elements get too narrow for the longer table. -/
theorem ShiftsValid.growTable {m : Mapping K M} (hv : ShiftsValid m)
    (hle : m.tableLengthShift < 30) : TableValid m.growTable [] := by
  have hpos := hv.shift_pos
  have hfits := hv.fits
  have helement := hv.element_le
  rw [elementBits_of_le helement] at hfits
  refine ShiftsValid.allocTable ⟨Nat.succ_pos _, hle, ?_, ?_⟩
  · dsimp only
    rw [Nat.shiftLeft_eq]
    split
    next h =>
      -- at 32 bits the elements are wide enough for every length
      have : m.tableElementShift ≠ 2 := by
        intro h2
        rw [h2] at h
        omega
      omega
    next h => exact helement
  · dsimp only
    rw [Nat.shiftLeft_eq, Nat.add_sub_cancel]
    split
    next h =>
      have hne : m.tableElementShift ≠ 2 := by
        intro h2
        rw [h2] at h
        omega
      rw [elementBits_of_le (by omega), Nat.pow_succ]
      have := Nat.two_pow_pos m.tableElementShift
      omega
    next h =>
      rw [elementBits_of_le helement]
      omega

/-- The loop of `mappingGrow`: the fields from `i` on are inserted one by one. -/
theorem rebuild_valid {H : K → Word} {fields : List (MapField K)} :
    ∀ {m : Mapping K M} {home : List Nat}, TableValid m home →
      home.length + fields.length < 2 ^ (m.tableLengthShift - 1) →
      ∃ table, m.rebuild H home.length fields = some { m with table := table } ∧
        TableValid { m with table := table }
          (home ++ fields.map fun f => homeSlot m.tableLengthShift (H f.key)) := by
  induction fields with
  | nil =>
    intro m home hv _
    refine ⟨m.table, rfl, ?_⟩
    rw [List.map_nil, List.append_nil]
    exact hv
  | cons f fields ih =>
    intro m home hv hlen
    rw [List.length_cons] at hlen
    have hhalf : 2 ^ (m.tableLengthShift - 1) ≤ 2 ^ m.tableLengthShift :=
      Nat.pow_le_pow_right (by omega) (by omega)
    have hs := homeSlot_lt m.tableLengthShift (H f.key)
    obtain ⟨d, hd⟩ := hv.valid.exists_first_empty (by omega) hs
    have hv' := hv.insert hs hd (hv.lt_emptyMarker (by omega))
    have hlen' : (home ++ [homeSlot m.tableLengthShift (H f.key)]).length = home.length + 1 := by
      rw [List.length_append, List.length_singleton]
    obtain ⟨table, hres, hvalid⟩ := ih hv' (by rw [hlen']; dsimp only; omega)
    refine ⟨table, ?_, ?_⟩
    · rw [Mapping.rebuild, lookupDistinct_eq hv hd]
      simp only [Option.bind_eq_bind, Option.bind_some]
      rw [insert_eq (by rw [hv.length]; exact probe_lt hs hd.lt), Option.bind_some, ← hlen', hres]
    · rw [List.append_assoc, List.singleton_append] at hvalid
      rw [List.map_cons]
      exact hvalid

end Nballerina.Runtime
