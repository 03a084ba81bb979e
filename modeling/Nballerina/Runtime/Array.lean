import Nballerina.Runtime.Mapping

/-!
# Arrays that grow

Mirroring `runtime/list.c`: `_bal_array_grow` and the operations that grow an array and then store a
member behind the last one, with `mappingGrowPush` of `runtime/mapping.c`.

The new capacity is 1.5 times the old one, rounded down, and at least what the caller asks for. An
array of capacity 1 does not grow by that, and a mapping asks for nothing:
`arrayGrow_room_iff` says that this is the only case in which the room is not made and a mapping
gets more fields than its capacity. The next field after that is copied outside the storage.

Mirroring notes:

* `members` are the places of the storage that `members` points to, so that a store is inside the
  storage if there is a place for it. An array asks for `capacity << shift` bytes and copies
  `length << shift` of them; for a mapping that is four times as much as its fields take, since
  `MAP_FIELD_SHIFT` is 6 and a field has 16 bytes;
* sizes in bytes are computed in 64 bits;
* whatever ends the program (a panic, or `malloc` finding no memory) and every panic code that is
  returned is `Fault.panic`. A store or a copy outside the storage is `Fault.outside`.
-/

namespace Nballerina.Runtime

variable {α : Type}

inductive Fault where
  | panic
  | outside
deriving DecidableEq, Repr

structure GenericArray (α : Type) where
  length : Nat
  capacity : Nat
  members : List α

/-- `TAGGED_PTR_SHIFT`. -/
def taggedPtrShift : Nat := 3

/-- `MAP_FIELD_SHIFT`. -/
def mapFieldShift : Nat := taggedPtrShift * 2

/-- The bytes of a member, and the shift with which its array is allocated. -/
structure Layout where
  size : Nat
  shift : Nat
  size_pos : 0 < size
  dvd_pow : size ∣ 2 ^ shift
  shift_le : shift ≤ mapFieldShift

/-- Lists of tagged pointers, ints and floats. -/
def taggedPtrLayout : Layout := ⟨8, taggedPtrShift, by decide, by decide, by decide⟩

/-- A field is a key and a value. -/
def mapFieldLayout : Layout := ⟨16, mapFieldShift, by decide, by decide, by decide⟩

/-- The members that fit into the storage for a capacity `n`. -/
def Layout.places (l : Layout) (n : Nat) : Nat := (n <<< l.shift) / l.size

/-- No object has more bytes. -/
def ptrdiffMax : Nat := 9223372036854775807

/-- `malloc`: storage of a number of bytes, as places for members of a size. -/
structure Malloc (α : Type) where
  alloc : Nat → Nat → Option (List α)
  length_eq : ∀ {size nBytes places}, alloc size nBytes = some places → places.length = nBytes / size
  le_max : ∀ {size nBytes places}, alloc size nBytes = some places → nBytes ≤ ptrdiffMax

/-- `_bal_alloc(capacity << shift)`. -/
def balAlloc (malloc : Malloc α) (l : Layout) (capacity : Nat) : Except Fault (List α) :=
  match malloc.alloc l.size ((capacity <<< l.shift) % 2 ^ 64) with
  | some places => .ok places
  | none => .error .panic

/-- `memcpy`, of `n` places. -/
def memcpy (dst src : List α) (n : Nat) : Except Fault (List α) :=
  if n ≤ dst.length ∧ n ≤ src.length then .ok (src.take n ++ dst.drop n) else .error .outside

/-- `_bal_array_grow`. -/
def GenericArray.grow (malloc : Malloc α) (l : Layout) (ap : GenericArray α) (minCapacity : Nat) :
    Except Fault (GenericArray α) :=
  match arrayGrow ap.capacity minCapacity with
  | none => .error .panic
  | some newCapacity => do
    let newMembers ← balAlloc malloc l newCapacity
    if ap.capacity = 0 then
      .ok { ap with members := newMembers, capacity := newCapacity }
    else
      let newMembers ← memcpy newMembers ap.members (l.places ap.length)
      .ok { ap with members := newMembers, capacity := newCapacity }

/-- `ap->members[i] = v`. -/
def GenericArray.put (ap : GenericArray α) (i : Nat) (v : α) : Except Fault (GenericArray α) :=
  if i < ap.members.length then .ok { ap with members := ap.members.set i v } else .error .outside

/-- Fill `n` places from `i` on. -/
def GenericArray.fill (filler : Nat → α) : GenericArray α → Nat → Nat → Except Fault (GenericArray α)
  | ap, _, 0 => .ok ap
  | ap, i, n + 1 => do
    let ap ← ap.put i (filler i)
    ap.fill filler (i + 1) n

/-- How the list operations grow the array for an index that is not below the length. -/
def GenericArray.growFor (malloc : Malloc α) (l : Layout) (ap : GenericArray α) (index : Int) :
    Except Fault (GenericArray α) :=
  if index < 0 ∨ ap.capacity ≤ index then
    if index < 0 ∨ (arrayLengthMax : Int) ≤ index then .error .panic
    else ap.grow malloc l (index.toNat + 1)
  else .ok ap

/-- The array in `_bal_list_generic_set_tagged`, once the member type has been checked, and in the
functions like it for int, float and byte arrays. `filler` is none for `FILL_NONE`. -/
def GenericArray.listSet (malloc : Malloc α) (l : Layout) (filler : Option (Nat → α))
    (ap : GenericArray α) (index : Int) (v : α) : Except Fault (GenericArray α) :=
  if 0 ≤ index ∧ index < ap.length then ap.put index.toNat v
  else if index > ap.length ∧ filler.isNone then .error .panic
  else do
    let ap ← ap.growFor malloc l index
    let ap ← ap.fill (filler.getD fun _ => v) ap.length (index.toNat - ap.length)
    let ap ← ap.put index.toNat v
    .ok { ap with length := index.toNat + 1 }

/-- The array in `_bal_list_filling_get`. -/
def GenericArray.listFillingGet (malloc : Malloc α) (filler : Option (Nat → α)) (ap : GenericArray α)
    (index : Int) : Except Fault (GenericArray α) :=
  if 0 ≤ index ∧ index < ap.length then .ok ap
  else if index < 0 then .error .panic
  else
    match filler with
    | none => .error .panic
    | some filler => do
      let ap ← ap.growFor malloc taggedPtrLayout index
      let ap ← ap.put index.toNat (filler index.toNat)
      let ap ← ap.fill filler ap.length (index.toNat - ap.length)
      .ok { ap with length := index.toNat + 1 }

/-- The beginning of `mappingGrowPush`. -/
def GenericArray.growIfFull (malloc : Malloc α) (ap : GenericArray α) : Except Fault (GenericArray α) :=
  if ap.length ≥ ap.capacity then ap.grow malloc mapFieldLayout 0 else .ok ap

/-- The array in `mappingGrowPush`. -/
def GenericArray.mappingGrowPush (malloc : Malloc α) (ap : GenericArray α) (field : α) :
    Except Fault (GenericArray α) := do
  let ap ← ap.growIfFull malloc
  let ap ← ap.put ap.length field
  .ok { ap with length := ap.length + 1 }

/-! ## The new capacity -/

section Capacity

variable {capacity minCapacity newCapacity : Nat}

theorem arrayGrow_zero : arrayGrow 0 minCapacity = some (max minCapacity 4) := by
  unfold arrayGrow
  rw [if_pos rfl]
  split <;> simp <;> omega

/-- What the capacity can become. -/
theorem arrayGrow_cases (hpos : capacity ≠ 0) (hle : capacity ≤ arrayLengthMax)
    (h : arrayGrow capacity minCapacity = some newCapacity) :
    newCapacity = max minCapacity (min (capacity + capacity / 2) arrayLengthMax) ∧
      capacity < arrayLengthMax := by
  unfold arrayGrow at h
  rw [if_neg hpos, Nat.shiftRight_one] at h
  unfold arrayLengthMax at hle h ⊢
  simp only [Option.bind_eq_bind] at h
  split at h
  next hroom =>
    simp only [Option.bind_some, Option.some.injEq] at h
    split at h <;> omega
  next hroom =>
    split at h
    next => cases h
    next hne =>
      simp only [Option.bind_some, Option.some.injEq] at h
      split at h <;> omega

theorem min_le_of_arrayGrow (hle : capacity ≤ arrayLengthMax)
    (h : arrayGrow capacity minCapacity = some newCapacity) : minCapacity ≤ newCapacity := by
  by_cases hpos : capacity = 0
  · rw [hpos, arrayGrow_zero] at h
    cases h
    omega
  · rw [(arrayGrow_cases hpos hle h).1]
    omega

theorem le_of_arrayGrow (hle : capacity ≤ arrayLengthMax)
    (h : arrayGrow capacity minCapacity = some newCapacity) : capacity ≤ newCapacity := by
  by_cases hpos : capacity = 0
  · omega
  · rw [(arrayGrow_cases hpos hle h).1]
    omega

/-- Half of 1 is 0. -/
theorem lt_of_arrayGrow (hle : capacity ≤ arrayLengthMax)
    (h : arrayGrow capacity minCapacity = some newCapacity)
    (hone : ¬ (capacity = 1 ∧ minCapacity ≤ 1)) : capacity < newCapacity := by
  by_cases hpos : capacity = 0
  · rw [hpos, arrayGrow_zero] at h
    cases h
    omega
  · obtain ⟨hnew, hlt⟩ := arrayGrow_cases hpos hle h
    omega

theorem arrayGrow_le (hle : capacity ≤ arrayLengthMax) (hmin : minCapacity ≤ arrayLengthMax)
    (h : arrayGrow capacity minCapacity = some newCapacity) : newCapacity ≤ arrayLengthMax := by
  by_cases hpos : capacity = 0
  · rw [hpos, arrayGrow_zero] at h
    cases h
    have : 4 ≤ arrayLengthMax := by
      unfold arrayLengthMax
      omega
    omega
  · rw [(arrayGrow_cases hpos hle h).1]
    omega

theorem arrayGrow_one (hmin : minCapacity ≤ 1) : arrayGrow 1 minCapacity = some 1 := by
  unfold arrayGrow arrayLengthMax
  rw [if_neg (by omega)]
  simp only [Option.bind_eq_bind]
  rw [if_pos (by simp), Option.bind_some]
  have : ¬ 1 + 1 >>> 1 < minCapacity := by
    rw [Nat.shiftRight_one]
    omega
  rw [if_neg this]
  rfl

/-- `ARRAY_LENGTH_MAX` is for places of 8 bytes. -/
theorem minBytes_le {shift : Nat} (hshift : shift ≤ taggedPtrShift)
    (hmin : minCapacity ≤ arrayLengthMax) : minCapacity <<< shift ≤ ptrdiffMax := by
  have hpow : 2 ^ shift ≤ 8 := Nat.pow_le_pow_right (n := 2) (by omega) hshift
  rw [Nat.shiftLeft_eq]
  calc minCapacity * 2 ^ shift ≤ arrayLengthMax * 8 := Nat.mul_le_mul hmin hpow
    _ ≤ ptrdiffMax := by
      unfold arrayLengthMax ptrdiffMax
      omega

/-- The size in bytes is computed without overflow. -/
theorem arrayGrow_bytes {shift : Nat} (hshift : shift ≤ mapFieldShift)
    (hle : capacity ≤ arrayLengthMax) (hobject : capacity <<< shift ≤ ptrdiffMax)
    (hmin : minCapacity <<< shift ≤ ptrdiffMax)
    (h : arrayGrow capacity minCapacity = some newCapacity) :
    (newCapacity <<< shift) % 2 ^ 64 = newCapacity <<< shift := by
  refine Nat.mod_eq_of_lt ?_
  rw [Nat.shiftLeft_eq] at hobject hmin ⊢
  have hpow : 2 ^ shift ≤ 64 := Nat.pow_le_pow_right (n := 2) (by omega) hshift
  unfold ptrdiffMax at hobject hmin
  by_cases hpos : capacity = 0
  · rw [hpos, arrayGrow_zero] at h
    cases h
    have : max minCapacity 4 * 2 ^ shift = max (minCapacity * 2 ^ shift) (4 * 2 ^ shift) :=
      (Nat.mul_max_mul_right ..).symm
    omega
  · have hnew : newCapacity ≤ max minCapacity (2 * capacity) := by
      rw [(arrayGrow_cases hpos hle h).1]
      omega
    have hmul : newCapacity * 2 ^ shift ≤ max minCapacity (2 * capacity) * 2 ^ shift :=
      Nat.mul_le_mul_right _ hnew
    have hmax : max minCapacity (2 * capacity) * 2 ^ shift =
        max (minCapacity * 2 ^ shift) (2 * capacity * 2 ^ shift) := (Nat.mul_max_mul_right ..).symm
    have htwo : 2 * capacity * 2 ^ shift = 2 * (capacity * 2 ^ shift) := Nat.mul_assoc ..
    omega

end Capacity

/-! ## Growing -/

theorem Layout.le_places (l : Layout) (n : Nat) : n ≤ l.places n := by
  unfold Layout.places
  rw [Nat.le_div_iff_mul_le l.size_pos, Nat.shiftLeft_eq]
  exact Nat.mul_le_mul_left n (Nat.le_of_dvd (Nat.two_pow_pos _) l.dvd_pow)

variable {i minCapacity n : Nat} {l : Layout} {ap : GenericArray α}

theorem Layout.places_mono (l : Layout) {m : Nat} (h : n ≤ m) : l.places n ≤ l.places m := by
  unfold Layout.places
  rw [Nat.shiftLeft_eq, Nat.shiftLeft_eq]
  exact Nat.div_le_div_right (Nat.mul_le_mul_right _ h)

/-- The storage of an array exists and has been allocated for its capacity. -/
structure GenericArray.Inv (l : Layout) (ap : GenericArray α) : Prop where
  length_le : ap.length ≤ ap.capacity
  capacity_le : ap.capacity ≤ arrayLengthMax
  storage : l.places ap.capacity ≤ ap.members.length
  object : ap.capacity <<< l.shift ≤ ptrdiffMax

/-- `ap'` is `ap` with room for another member, and for `minCapacity` ones in all. -/
structure Room (ap ap' : GenericArray α) (minCapacity : Nat) : Prop where
  length_eq : ap'.length = ap.length
  length_lt : ap.length < ap'.capacity
  min_le : minCapacity ≤ ap'.capacity
  storage : ap'.capacity ≤ ap'.members.length
  same : ∀ i < ap.length, ap'.members[i]? = ap.members[i]?

/-- The array gets its room, or the program ends. -/
def MakesRoom (malloc : Malloc α) (l : Layout) (ap : GenericArray α) (minCapacity : Nat) : Prop :=
  ap.grow malloc l minCapacity = .error .panic ∨
    ∃ ap', ap.grow malloc l minCapacity = .ok ap' ∧ Room ap ap' minCapacity

/-- An operation panics, or it stays inside the storage and leaves the array in order. -/
def Stays (l : Layout) (r : Except Fault (GenericArray α)) : Prop :=
  r = .error .panic ∨ ∃ ap', r = .ok ap' ∧ ap'.Inv l

theorem balAlloc_spec (malloc : Malloc α) (l : Layout) {capacity : Nat}
    (hbytes : (capacity <<< l.shift) % 2 ^ 64 = capacity <<< l.shift) :
    balAlloc malloc l capacity = .error .panic ∨ ∃ places, balAlloc malloc l capacity = .ok places ∧
      places.length = l.places capacity ∧ capacity <<< l.shift ≤ ptrdiffMax := by
  unfold balAlloc
  rw [hbytes]
  split
  next places h => exact .inr ⟨places, rfl, malloc.length_eq h, malloc.le_max h⟩
  next => exact .inl rfl

theorem memcpy_spec {dst src : List α} (hdst : n ≤ dst.length) (hsrc : n ≤ src.length) :
    ∃ places, memcpy dst src n = .ok places ∧ places.length = dst.length ∧
      ∀ i < n, places[i]? = src[i]? := by
  refine ⟨_, if_pos ⟨hdst, hsrc⟩, ?_, fun i hi => ?_⟩
  · rw [List.length_append, List.length_take, List.length_drop]
    omega
  · rw [List.getElem?_append_left (by rw [List.length_take]; omega), List.getElem?_take_of_lt hi]

/-- Growing panics, or keeps the members and gives the capacity that `arrayGrow` computes. -/
theorem grow_spec (malloc : Malloc α) (hinv : ap.Inv l) (hmin : minCapacity ≤ arrayLengthMax)
    (hbytes : minCapacity <<< l.shift ≤ ptrdiffMax) :
    ap.grow malloc l minCapacity = .error .panic ∨
      ∃ ap', ap.grow malloc l minCapacity = .ok ap' ∧ ap'.Inv l ∧ ap'.length = ap.length ∧
        arrayGrow ap.capacity minCapacity = some ap'.capacity ∧
        ∀ i < ap.length, ap'.members[i]? = ap.members[i]? := by
  unfold GenericArray.grow
  split
  next => exact .inl rfl
  next newCapacity hnew =>
    have hle := le_of_arrayGrow hinv.capacity_le hnew
    have hmax := arrayGrow_le hinv.capacity_le hmin hnew
    rcases balAlloc_spec malloc l
        (arrayGrow_bytes l.shift_le hinv.capacity_le hinv.object hbytes hnew) with
      halloc | ⟨places, halloc, hlength, hobject⟩
    · rw [halloc]
      exact .inl rfl
    · rw [halloc]
      refine .inr ?_
      show ∃ ap', (if ap.capacity = 0 then _ else _) = _ ∧ _
      by_cases hzero : ap.capacity = 0
      · have hempty : ap.length = 0 := by
          have := hinv.length_le
          omega
        rw [if_pos hzero]
        refine ⟨_, rfl, ⟨hinv.length_le.trans hle, hmax, hlength.ge, hobject⟩, rfl, hnew, fun i hi => ?_⟩
        omega
      · have hdst : l.places ap.length ≤ places.length := by
          rw [hlength]
          exact l.places_mono (hinv.length_le.trans hle)
        obtain ⟨members, hcopy, hsize, hsame⟩ :=
          memcpy_spec hdst ((l.places_mono hinv.length_le).trans hinv.storage)
        rw [if_neg hzero, hcopy]
        refine ⟨_, rfl, ⟨hinv.length_le.trans hle, hmax, (hsize.trans hlength).ge, hobject⟩, rfl, hnew,
          fun i hi => hsame i (hi.trans_le (l.le_places _))⟩

/-- The growth that the source's comment promises. -/
theorem grow_room (malloc : Malloc α) (hinv : ap.Inv l) (hmin : minCapacity ≤ arrayLengthMax)
    (hbytes : minCapacity <<< l.shift ≤ ptrdiffMax)
    (hone : ¬ (ap.capacity = 1 ∧ ap.length = 1 ∧ minCapacity ≤ 1)) :
    ap.grow malloc l minCapacity = .error .panic ∨
      ∃ ap', ap.grow malloc l minCapacity = .ok ap' ∧ ap'.Inv l ∧ Room ap ap' minCapacity := by
  rcases grow_spec malloc hinv hmin hbytes with h | ⟨ap', h, hinv', hlength, hnew, hsame⟩
  · exact .inl h
  · refine .inr ⟨ap', h, hinv', hlength, ?_, min_le_of_arrayGrow hinv.capacity_le hnew,
      (l.le_places _).trans hinv'.storage, hsame⟩
    have hle := hinv.length_le
    by_cases hcap : ap.capacity = 1 ∧ minCapacity ≤ 1
    · have := le_of_arrayGrow hinv.capacity_le hnew
      omega
    · have := lt_of_arrayGrow hinv.capacity_le hnew hcap
      omega

/-- Storage that exists as long as it is not too large. -/
def mallocOf (place : α) : Malloc α where
  alloc size nBytes :=
    if nBytes ≤ ptrdiffMax then some (List.replicate (nBytes / size) place) else none
  length_eq := by
    intro size nBytes places h
    split at h
    next => rw [← Option.some.inj h, List.length_replicate]
    next => cases h
  le_max := by
    intro size nBytes places h
    split at h
    next hle => exact hle
    next => cases h

/-- Capacity 1 stays 1. -/
theorem grow_one (hinv : ap.Inv l) (hcapacity : ap.capacity = 1) (hmin : minCapacity ≤ 1) (place : α) :
    ∃ ap', ap.grow (mallocOf place) l minCapacity = .ok ap' ∧ ap'.length = ap.length ∧
      ap'.capacity = 1 := by
  have hpow : 2 ^ l.shift ≤ 64 := Nat.pow_le_pow_right (n := 2) (by omega) l.shift_le
  have hbytes : (1 <<< l.shift) % 2 ^ 64 = 1 <<< l.shift := by
    rw [Nat.shiftLeft_eq]
    omega
  have hle : 1 <<< l.shift ≤ ptrdiffMax := by
    rw [Nat.shiftLeft_eq]
    unfold ptrdiffMax
    omega
  have halloc : balAlloc (mallocOf place) l 1 = .ok (List.replicate (l.places 1) place) := by
    have hplaces : (mallocOf place).alloc l.size (1 <<< l.shift) =
        some (List.replicate (l.places 1) place) := if_pos hle
    unfold balAlloc
    rw [hbytes, hplaces]
  have hlength : ap.length ≤ 1 := hinv.length_le.trans hcapacity.le
  have hdst : l.places ap.length ≤ (List.replicate (l.places 1) place).length := by
    rw [List.length_replicate]
    exact l.places_mono hlength
  obtain ⟨members, hcopy, _⟩ :=
    memcpy_spec hdst ((l.places_mono hinv.length_le).trans hinv.storage)
  refine ⟨{ ap with members := members, capacity := 1 }, ?_, rfl, rfl⟩
  unfold GenericArray.grow
  rw [hcapacity, arrayGrow_one hmin]
  show (do
    let newMembers ← balAlloc (mallocOf place) l 1
    if 1 = 0 then _ else _) = _
  rw [halloc]
  show (do
    let newMembers ← memcpy _ ap.members (l.places ap.length)
    _) = _
  rw [hcopy]
  rfl

/-! ## Storing behind the last member -/

theorem put_spec (h : i < ap.members.length) (v : α) :
    ∃ ap', ap.put i v = .ok ap' ∧ ap'.length = ap.length ∧ ap'.capacity = ap.capacity ∧
      ap'.members.length = ap.members.length :=
  ⟨_, if_pos h, rfl, rfl, List.length_set⟩

theorem fill_spec (filler : Nat → α) (h : i + n ≤ ap.members.length) :
    ∃ ap', ap.fill filler i n = .ok ap' ∧ ap'.length = ap.length ∧ ap'.capacity = ap.capacity ∧
      ap'.members.length = ap.members.length := by
  induction n generalizing ap i with
  | zero => exact ⟨ap, rfl, rfl, rfl, rfl⟩
  | succ n ih =>
    have hi : i < ap.members.length := by omega
    obtain ⟨ap1, hput, hlength, hcapacity, hsize⟩ := put_spec hi (filler i)
    have hrest : i + 1 + n ≤ ap1.members.length := by omega
    obtain ⟨ap2, hfill, hlength', hcapacity', hsize'⟩ := ih hrest
    refine ⟨ap2, ?_, hlength'.trans hlength, hcapacity'.trans hcapacity, hsize'.trans hsize⟩
    unfold GenericArray.fill
    rw [hput]
    exact hfill

theorem GenericArray.Inv.lt_storage (h : ap.Inv l) (hi : i < ap.capacity) : i < ap.members.length :=
  hi.trans_le ((l.le_places _).trans h.storage)

/-- Only the sizes count. -/
theorem GenericArray.Inv.resize {ap' : GenericArray α} (h : ap.Inv l)
    (hlength : ap'.length ≤ ap.capacity) (hcapacity : ap'.capacity = ap.capacity)
    (hsize : ap'.members.length = ap.members.length) : ap'.Inv l :=
  ⟨hlength.trans hcapacity.ge, hcapacity.le.trans h.capacity_le,
    by rw [hcapacity, hsize]; exact h.storage, by rw [hcapacity]; exact h.object⟩

/-- There is a place for the member with the index. -/
theorem growFor_spec (malloc : Malloc α) (hshift : l.shift ≤ taggedPtrShift) (hinv : ap.Inv l)
    (index : Int) :
    ap.growFor malloc l index = .error .panic ∨ ∃ ap', ap.growFor malloc l index = .ok ap' ∧
      ap'.Inv l ∧ ap'.length = ap.length ∧ 0 ≤ index ∧ index < ap'.capacity := by
  unfold GenericArray.growFor
  split
  next =>
    split
    next => exact .inl rfl
    next hmax =>
      have hmin : index.toNat + 1 ≤ arrayLengthMax := by omega
      have hone : ¬ (ap.capacity = 1 ∧ ap.length = 1 ∧ index.toNat + 1 ≤ 1) := by omega
      rcases grow_room malloc hinv hmin (minBytes_le hshift hmin) hone with h | ⟨ap', h, hinv', hroom⟩
      · exact .inl h
      · refine .inr ⟨ap', h, hinv', hroom.length_eq, ?_⟩
        have := hroom.min_le
        omega
  next hcapacity => exact .inr ⟨ap, rfl, hinv, rfl, by omega, by omega⟩

theorem listSet_stays (malloc : Malloc α) (hshift : l.shift ≤ taggedPtrShift) (hinv : ap.Inv l)
    (filler : Option (Nat → α)) (index : Int) (v : α) :
    Stays l (ap.listSet malloc l filler index v) := by
  unfold GenericArray.listSet
  split
  next hlt =>
    have hi : index.toNat < ap.capacity := by
      have := hinv.length_le
      omega
    obtain ⟨ap', hput, hlength, hcapacity, hsize⟩ := put_spec (hinv.lt_storage hi) v
    exact .inr ⟨ap', hput, hinv.resize (hlength.le.trans hinv.length_le) hcapacity hsize⟩
  next hge =>
    split
    next => exact .inl rfl
    next =>
      rcases growFor_spec malloc hshift hinv index with h | ⟨ap1, h, hinv1, hlength, hpos, hplace⟩
      · rw [h]
        exact .inl rfl
      · rw [h]
        have hi : index.toNat < ap1.capacity := by omega
        have hi' := hinv1.lt_storage hi
        have hgap : ap1.length + (index.toNat - ap1.length) ≤ ap1.members.length := by omega
        obtain ⟨ap2, hfill, _, hcapacity2, hsize2⟩ := fill_spec (filler.getD fun _ => v) hgap
        have hplace2 : index.toNat < ap2.members.length := by omega
        obtain ⟨ap3, hput, _, hcapacity3, hsize3⟩ := put_spec hplace2 v
        refine .inr ⟨{ ap3 with length := index.toNat + 1 }, ?_,
          hinv1.resize hi (hcapacity3.trans hcapacity2) (hsize3.trans hsize2)⟩
        show (do
          let ap2 ← ap1.fill (filler.getD fun _ => v) ap1.length (index.toNat - ap1.length)
          _) = _
        rw [hfill]
        show (do
          let ap3 ← ap2.put index.toNat v
          _) = _
        rw [hput]
        rfl

theorem listFillingGet_stays (malloc : Malloc α) (hinv : ap.Inv taggedPtrLayout)
    (filler : Option (Nat → α)) (index : Int) :
    Stays taggedPtrLayout (ap.listFillingGet malloc filler index) := by
  unfold GenericArray.listFillingGet
  split
  next => exact .inr ⟨ap, rfl, hinv⟩
  next hge =>
    split
    next => exact .inl rfl
    next hneg =>
      cases filler with
      | none => exact .inl rfl
      | some filler =>
        show Stays taggedPtrLayout (do
          let ap1 ← ap.growFor malloc taggedPtrLayout index
          _)
        rcases growFor_spec malloc (le_refl taggedPtrShift) hinv index with
          h | ⟨ap1, h, hinv1, hlength, hpos, hplace⟩
        · rw [h]
          exact .inl rfl
        · rw [h]
          have hi : index.toNat < ap1.capacity := by omega
          have hi' := hinv1.lt_storage hi
          obtain ⟨ap2, hput, hlength2, hcapacity2, hsize2⟩ := put_spec hi' (filler index.toNat)
          have hgap : ap2.length + (index.toNat - ap2.length) ≤ ap2.members.length := by omega
          obtain ⟨ap3, hfill, _, hcapacity3, hsize3⟩ := fill_spec filler hgap
          refine .inr ⟨{ ap3 with length := index.toNat + 1 }, ?_,
            hinv1.resize hi (hcapacity3.trans hcapacity2) (hsize3.trans hsize2)⟩
          show (do
            let ap2 ← ap1.put index.toNat (filler index.toNat)
            _) = _
          rw [hput]
          show (do
            let ap3 ← ap2.fill filler ap2.length (index.toNat - ap2.length)
            _) = _
          rw [hfill]
          rfl

/-- A mapping asks for no minimum, so that one with a single field does not get another place. -/
theorem mappingGrowPush_stays_iff (hinv : ap.Inv mapFieldLayout) (field : α) :
    (∀ malloc, Stays mapFieldLayout (ap.mappingGrowPush malloc field)) ↔
      ¬ (ap.capacity = 1 ∧ ap.length = 1) := by
  refine ⟨fun h hone => ?_, fun hone malloc => ?_⟩
  · obtain ⟨ap1, hgrow, hlength, hcapacity⟩ := grow_one hinv hone.1 (Nat.zero_le 1) field
    have hrun : (ap.mappingGrowPush (mallocOf field) field) = (do
        let ap2 ← ap1.put ap1.length field
        .ok { ap2 with length := ap2.length + 1 }) := by
      unfold GenericArray.mappingGrowPush GenericArray.growIfFull
      rw [if_pos (by omega), hgrow]
      rfl
    rcases h (mallocOf field) with hpanic | ⟨ap', hok, hinv'⟩
    · rw [hrun] at hpanic
      unfold GenericArray.put at hpanic
      split at hpanic
      next => cases hpanic
      next => cases hpanic
    · rw [hrun] at hok
      unfold GenericArray.put at hok
      split at hok
      next =>
        cases hok
        have : ap1.length + 1 ≤ ap1.capacity := hinv'.length_le
        omega
      next => cases hok
  · have hput : ∀ ap1 : GenericArray α, ap1.Inv mapFieldLayout → ap1.length < ap1.capacity →
        Stays mapFieldLayout (do
          let ap2 ← ap1.put ap1.length field
          .ok { ap2 with length := ap2.length + 1 }) := by
      intro ap1 hinv1 hplace
      obtain ⟨ap2, hput, hlength, hcapacity, hsize⟩ := put_spec (hinv1.lt_storage hplace) field
      rw [hput]
      refine .inr ⟨_, rfl, hinv1.resize ?_ hcapacity hsize⟩
      show ap2.length + 1 ≤ _
      omega
    unfold GenericArray.mappingGrowPush GenericArray.growIfFull
    by_cases hfull : ap.length ≥ ap.capacity
    · rw [if_pos hfull]
      have hnone : ¬ (ap.capacity = 1 ∧ ap.length = 1 ∧ 0 ≤ 1) := fun h => hone ⟨h.1, h.2.1⟩
      rcases grow_room malloc hinv (Nat.zero_le _) (by simp) hnone with h | ⟨ap1, h, hinv1, hroom⟩
      · rw [h]
        exact .inl rfl
      · rw [h]
        refine hput ap1 hinv1 ?_
        rw [hroom.length_eq]
        exact hroom.length_lt
    · rw [if_neg hfull]
      exact hput ap hinv (by omega)

/-- An array gets its room, unless it is full with one member and no more than one place is asked
for. The list operations stay inside the storage, and so does a field that is added to a mapping,
unless the mapping has just that one place. -/
theorem arrayGrow_room_iff {l : Layout} {ap : GenericArray α} {minCapacity : Nat} (hinv : ap.Inv l)
    (hmin : minCapacity ≤ arrayLengthMax) (hcaller : l.shift ≤ taggedPtrShift ∨ minCapacity = 0) :
    ((∀ malloc, MakesRoom malloc l ap minCapacity) ↔
        ¬ (ap.capacity = 1 ∧ ap.length = 1 ∧ minCapacity ≤ 1)) ∧
      (l.shift ≤ taggedPtrShift → ∀ malloc filler index v,
        Stays l (ap.listSet malloc l filler index v)) ∧
      (l = taggedPtrLayout → ∀ malloc filler index, Stays l (ap.listFillingGet malloc filler index)) ∧
      (l = mapFieldLayout → ∀ field, (∀ malloc, Stays l (ap.mappingGrowPush malloc field)) ↔
        ¬ (ap.capacity = 1 ∧ ap.length = 1)) := by
  have hbytes : minCapacity <<< l.shift ≤ ptrdiffMax := by
    rcases hcaller with hshift | hzero
    · exact minBytes_le hshift hmin
    · rw [hzero, Nat.zero_shiftLeft]
      exact Nat.zero_le _
  refine ⟨⟨fun h hone => ?_, fun hone malloc => ?_⟩,
    fun hshift malloc => listSet_stays malloc hshift hinv, fun hl malloc => ?_, fun hl => ?_⟩
  · have hplace : 0 < ap.members.length := hinv.lt_storage (by omega)
    obtain ⟨ap', hgrow, hlength, hcapacity⟩ :=
      grow_one hinv hone.1 hone.2.2 (ap.members.get ⟨0, hplace⟩)
    rcases h (mallocOf (ap.members.get ⟨0, hplace⟩)) with hpanic | ⟨ap'', hgrow', hroom⟩
    · rw [hgrow] at hpanic
      cases hpanic
    · rw [hgrow] at hgrow'
      cases hgrow'
      have := hroom.length_lt
      omega
  · rcases grow_room malloc hinv hmin hbytes hone with h | ⟨ap', h, _, hroom⟩
    · exact .inl h
    · exact .inr ⟨ap', h, hroom⟩
  · rw [hl] at hinv ⊢
    exact listFillingGet_stays malloc hinv
  · rw [hl] at hinv ⊢
    exact mappingGrowPush_stays_iff hinv

/-- A full array of four tagged pointers: it gets its room, and a member is set or filled in past it. -/
theorem arrayGrow_room_four :
    MakesRoom (mallocOf 0) taggedPtrLayout (⟨4, 4, [10, 20, 30, 40]⟩ : GenericArray Nat) 5 ∧
      Stays taggedPtrLayout ((⟨4, 4, [10, 20, 30, 40]⟩ : GenericArray Nat).listSet (mallocOf 0)
        taggedPtrLayout (some fun _ => 0) 6 70) ∧
      Stays taggedPtrLayout ((⟨4, 4, [10, 20, 30, 40]⟩ : GenericArray Nat).listFillingGet (mallocOf 0)
        (some fun _ => 0) 9) := by
  have hinv : (⟨4, 4, [10, 20, 30, 40]⟩ : GenericArray Nat).Inv taggedPtrLayout := by
    refine ⟨le_refl _, ?_, le_refl _, ?_⟩
    · show 4 ≤ 9223372036854775807 / 8
      omega
    · show 4 <<< 3 ≤ 9223372036854775807
      omega
  have hmin : 5 ≤ arrayLengthMax := by
    show 5 ≤ 9223372036854775807 / 8
    omega
  obtain ⟨hroom, hset, hfilling, -⟩ := arrayGrow_room_iff hinv hmin (.inl (le_refl _))
  exact ⟨hroom.mpr (fun h => by omega) (mallocOf 0), hset (le_refl _) _ _ _ _, hfilling rfl _ _ _⟩

/-- A mapping made for one field, with storage for four: when a second field is added, the array keeps
its capacity, and for the third one the copy leaves the storage. -/
theorem arrayGrow_no_room_one :
    (⟨1, 1, [10, 0, 0, 0]⟩ : GenericArray Nat).Inv mapFieldLayout ∧
      ¬ MakesRoom (mallocOf 0) mapFieldLayout (⟨1, 1, [10, 0, 0, 0]⟩ : GenericArray Nat) 0 ∧
      ((⟨1, 1, [10, 0, 0, 0]⟩ : GenericArray Nat).mappingGrowPush (mallocOf 0) 20 >>= fun ap =>
        ap.mappingGrowPush (mallocOf 0) 30) = .error .outside := by
  have hgrow : (⟨1, 1, [10, 0, 0, 0]⟩ : GenericArray Nat).grow (mallocOf 0) mapFieldLayout 0 =
      .ok ⟨1, 1, [10, 0, 0, 0]⟩ := rfl
  refine ⟨⟨le_refl _, ?_, le_refl _, ?_⟩, fun h => ?_, rfl⟩
  · show 1 ≤ 9223372036854775807 / 8
    omega
  · show 1 <<< 6 ≤ 9223372036854775807
    omega
  · rcases h with h | ⟨ap', h, hroom⟩
    · rw [hgrow] at h
      cases h
    · rw [hgrow] at h
      cases h
      exact absurd hroom.length_lt (lt_irrefl 1)

end Nballerina.Runtime
