import Nballerina.Runtime.MappingOps
import Nballerina.Runtime.StringStore

/-!
# A mapping over a whole run

The keys of a mapping are strings of the run (`Reachable`), each with its text. `Run` is
any sequence of operations on one mapping: its construction for `capacity` fields, at most
as many `init_member` calls with distinct keys, and then `set`, `get` and `filling_get` in
any order, with anything else the program does to its strings in between. `order` and
`last` are what the operations mean: the keys in the order in which they were first set,
and the value last set for each. How an operation changes them depends on `order`, `last`
and the descriptor alone (`memberTypeFor`), not on what the code answers: a value that the
member type of its key contains is set, and every other `set` leaves them as they are. In
every state of a run the mapping refines them, and every operation answers what they say.
-/

namespace Nballerina.Runtime

open Nballerina.Lib Nballerina.Lib.OpenTable

/-- A string of the run with its text. -/
abbrev Key := TaggedPtr × List Char

/-- The equality of keys looks at the tagged pointers alone. -/
def keyEq (m : Mem) (k k' : Key) : Bool := taggedStringEqual m k.1 k'.1

def keyHash (hashKey : HashKey) (m : Mem) (k : Key) : Word := balStringHash hashKey m k.1

open Classical in
/-- The hash of a text, which every representation of it has. -/
noncomputable def textHash (hashKey : HashKey) (s : List Char) : Word :=
  if h : ∃ x : Heap × TaggedPtr, Represents x.1 x.2 s then
    balStringHash hashKey h.choose.1.mem h.choose.2
  else 0#64

theorem textHash_eq {h : Heap} {tp : TaggedPtr} {s : List Char} (hashKey : HashKey)
    (hr : Represents h tp s) : balStringHash hashKey h.mem tp = textHash hashKey s := by
  have hex : ∃ x : Heap × TaggedPtr, Represents x.1 x.2 s := ⟨(h, tp), hr⟩
  rw [textHash, dif_pos hex]
  exact hr.hash_eq hashKey hex.choose_spec

/-- The strings of a run are keys. -/
theorem Store.Valid.keyOps {st : Store} (hv : st.Valid) (hashKey : HashKey) :
    KeyOps (fun k : Key => k ∈ st.strings) Prod.snd (textHash hashKey) (keyEq st.heap.mem)
      (keyHash hashKey st.heap.mem) :=
  ⟨fun k k' hk hk' => (hv k hk).equal_iff (hv k' hk'), fun k hk => textHash_eq hashKey (hv k hk)⟩

theorem Step.mem_strings {st st' : Store} (hs : Step st st') {k : Key} (hk : k ∈ st.strings) :
    k ∈ st'.strings := by
  cases hs with
  | other m hm => exact hk
  | _ => exact .tail _ hk

/-- A mapping in a run: the code's state, what it stands for, and the number of
`init_member` calls that may follow. -/
structure MappingState (M : Type) where
  store : Store
  mapping : Mapping Key M
  order : List (List Char)
  last : List Char → Option TaggedPtr
  inits : Nat

/-- The states of a run. Growing the array of fields makes room for a new field whenever it
is done, and there are fewer than `2 ^ 29` fields. -/
inductive Run {M : Type} (hashKey : HashKey) (desc : MappingDesc M) (capacity : Nat) :
    MappingState M → Prop where
  | construct {st : Store} (hst : Reachable st) {m : Mapping Key M}
      (hm : mappingConstruct desc capacity = some m) :
      Run hashKey desc capacity ⟨st, m, [], fun _ => none, capacity⟩
  | strings {x : MappingState M} (hx : Run hashKey desc capacity x) {st : Store}
      (hs : Step x.store st) :
      Run hashKey desc capacity ⟨st, x.mapping, x.order, x.last, x.inits⟩
  | initMember {x : MappingState M} (hx : Run hashKey desc capacity x) {key : Key}
      (hkey : key ∈ x.store.strings) (hnew : key.2 ∉ x.order) (hinits : 0 < x.inits)
      (value : TaggedPtr) {m : Mapping Key M}
      (hm : x.mapping.initMember (keyHash hashKey x.store.heap.mem) key value = some m) :
      Run hashKey desc capacity
        ⟨x.store, m, x.order ++ [key.2], Function.update x.last key.2 (some value), x.inits - 1⟩
  | set {x : MappingState M} (hx : Run hashKey desc capacity x) {key : Key}
      (hkey : key ∈ x.store.strings) (contains : M → TaggedPtr → Bool) (isExact : Bool)
      (value : TaggedPtr) (hroom : key.2 ∉ x.order → GrowMakesRoom x.mapping)
      (hcount : (orderSet x.order key.2).length < 2 ^ 29)
      (hvalue : contains (memberTypeFor desc x.order key.2) value = true)
      {code : Option PanicCode} {m : Mapping Key M}
      (hm : x.mapping.set (keyEq x.store.heap.mem) (keyHash hashKey x.store.heap.mem) contains
        isExact key value = some (code, m)) :
      Run hashKey desc capacity
        ⟨x.store, m, orderSet x.order key.2, Function.update x.last key.2 (some value), 0⟩
  | setPanic {x : MappingState M} (hx : Run hashKey desc capacity x) {key : Key}
      (hkey : key ∈ x.store.strings) (contains : M → TaggedPtr → Bool) (isExact : Bool)
      (value : TaggedPtr) (hroom : key.2 ∉ x.order → GrowMakesRoom x.mapping)
      (hcount : (orderSet x.order key.2).length < 2 ^ 29)
      (hvalue : contains (memberTypeFor desc x.order key.2) value = false)
      {code : Option PanicCode} {m : Mapping Key M}
      (hm : x.mapping.set (keyEq x.store.heap.mem) (keyHash hashKey x.store.heap.mem) contains
        isExact key value = some (code, m)) :
      Run hashKey desc capacity ⟨x.store, m, x.order, x.last, 0⟩
  | fillingGet {x : MappingState M} (hx : Run hashKey desc capacity x) {key : Key}
      (hkey : key ∈ x.store.strings) (filler : Option TaggedPtr)
      (hroom : key.2 ∉ x.order → GrowMakesRoom x.mapping)
      (hcount : (orderSet x.order key.2).length < 2 ^ 29) {value : TaggedPtr}
      (hvalue : (x.last key.2).or filler = some value)
      {r : Except PanicCode TaggedPtr} {m : Mapping Key M}
      (hm : x.mapping.fillingGet (keyEq x.store.heap.mem) (keyHash hashKey x.store.heap.mem) filler
        key = some (r, m)) :
      Run hashKey desc capacity
        ⟨x.store, m, orderSet x.order key.2, Function.update x.last key.2 (some value), 0⟩
  | fillingGetPanic {x : MappingState M} (hx : Run hashKey desc capacity x) {key : Key}
      (hkey : key ∈ x.store.strings) (filler : Option TaggedPtr)
      (hroom : key.2 ∉ x.order → GrowMakesRoom x.mapping)
      (hcount : (orderSet x.order key.2).length < 2 ^ 29)
      (hvalue : (x.last key.2).or filler = none)
      {r : Except PanicCode TaggedPtr} {m : Mapping Key M}
      (hm : x.mapping.fillingGet (keyEq x.store.heap.mem) (keyHash hashKey x.store.heap.mem) filler
        key = some (r, m)) :
      Run hashKey desc capacity ⟨x.store, m, x.order, x.last, 0⟩

/-- What holds in every state of a run. -/
structure MappingState.Valid {M : Type} (hashKey : HashKey) (desc : MappingDesc M)
    (x : MappingState M) : Prop where
  reachable : Reachable x.store
  desc_eq : x.mapping.desc = desc
  inv : x.mapping.Inv Prod.snd (textHash hashKey) x.order x.last
  keys : ∀ f ∈ x.mapping.fields, f.key ∈ x.store.strings
  inits : 0 < x.inits → x.mapping.fields.length + x.inits ≤ x.mapping.capacity ∧
    x.mapping.capacity < 2 ^ (x.mapping.tableLengthShift - 1)

section Run

variable {M : Type} {hashKey : HashKey} {desc : MappingDesc M} {capacity : Nat}
  {x : MappingState M}

theorem MappingState.Valid.keyOps (hv : x.Valid hashKey desc) :
    KeyOps (fun k : Key => k ∈ x.store.strings) Prod.snd (textHash hashKey)
      (keyEq x.store.heap.mem) (keyHash hashKey x.store.heap.mem) :=
  hv.reachable.valid.keyOps hashKey

/-- Every operation of a run keeps `Valid`. -/
theorem Run.valid (hcap : capacity < 2 ^ 29) (hx : Run hashKey desc capacity x) :
    x.Valid hashKey desc := by
  have hzero {P : Prop} (h : 0 < 0) : P := absurd h (Nat.lt_irrefl 0)
  induction hx with
  | construct hst hm =>
    have hdesc := mappingConstruct_desc hm
    obtain ⟨m', hres, hinv, hcapacity, hlt⟩ :=
      mappingConstruct_inv Prod.snd (textHash hashKey) desc hcap
    rw [hm] at hres
    cases hres
    have hnil := List.map_eq_nil_iff.mp hinv.contents.order_eq
    refine ⟨hst, hdesc, hinv, fun f hf => ?_, fun _ => ?_⟩
    · rw [hnil] at hf
      exact absurd hf List.not_mem_nil
    · dsimp only
      rw [hnil, hcapacity, List.length_nil, Nat.zero_add]
      exact ⟨Nat.le_refl _, hlt⟩
  | strings hx hs ih =>
    exact ⟨ih.reachable.step hs, ih.desc_eq, ih.inv, fun f hf => hs.mem_strings (ih.keys f hf),
      ih.inits⟩
  | initMember hx hkey hnew hinits value hm ih =>
    have hdesc := (initMember_desc hm).trans ih.desc_eq
    obtain ⟨hlen, hlt⟩ := ih.inits hinits
    obtain ⟨m', hres, hinv, hfields, hcapacity, hshift⟩ :=
      initMember_inv ih.inv ih.keyOps hkey hnew (by omega) hlt value
    rw [hm] at hres
    cases hres
    refine ⟨ih.reachable, hdesc, hinv, fun f hf => ?_, fun _ => ?_⟩
    · rw [hfields] at hf
      rcases List.mem_append.mp hf with hf | hf
      · exact ih.keys f hf
      · rw [List.mem_singleton.mp hf]
        exact hkey
    · dsimp only
      rw [hfields, List.length_append, List.length_singleton, hcapacity, hshift]
      exact ⟨by omega, hlt⟩
  | set hx hkey contains isExact value hroom hcount hvalue hm ih =>
    have hdesc := (set_desc hm).trans ih.desc_eq
    rw [← ih.desc_eq] at hvalue
    rcases set_inv ih.inv ih.keyOps ih.keys hkey contains isExact value hroom hcount with
      ⟨hno, -⟩ | ⟨-, m', hres, hinv, hkeys⟩
    · rw [hvalue] at hno
      cases hno
    · rw [hm] at hres
      cases hres
      exact ⟨ih.reachable, hdesc, hinv, hkeys, hzero⟩
  | setPanic hx hkey contains isExact value hroom hcount hvalue hm ih =>
    rw [← ih.desc_eq] at hvalue
    rcases set_inv ih.inv ih.keyOps ih.keys hkey contains isExact value hroom hcount with
      ⟨-, hres⟩ | ⟨hyes, -⟩
    · rw [hm] at hres
      cases hres
      exact ⟨ih.reachable, ih.desc_eq, ih.inv, ih.keys, hzero⟩
    · rw [hvalue] at hyes
      cases hyes
  | fillingGet hx hkey filler hroom hcount hvalue hm ih =>
    have hdesc := (fillingGet_desc hm).trans ih.desc_eq
    rcases fillingGet_inv ih.inv ih.keyOps ih.keys hkey filler hroom hcount with
      ⟨value, hlast, hres⟩ | ⟨hlast, hfiller, -⟩ | ⟨value, m', hlast, hfiller, hres, hinv, hkeys⟩
    · rw [hm] at hres
      cases hres
      rw [hlast, Option.some_or] at hvalue
      cases hvalue
      -- the value is the one that is there
      refine ⟨ih.reachable, hdesc, ?_, ih.keys, hzero⟩
      dsimp only
      rw [← hlast, Function.update_eq_self, orderSet, if_pos]
      · exact ih.inv
      · by_contra hnew
        rw [ih.inv.contents.absent _ hnew] at hlast
        cases hlast
    · rw [hlast, hfiller] at hvalue
      cases hvalue
    · rw [hm] at hres
      cases hres
      rw [hlast, hfiller, Option.none_or] at hvalue
      cases hvalue
      refine ⟨ih.reachable, hdesc, ?_, hkeys, hzero⟩
      dsimp only
      rwa [orderSet, if_neg fun hmem => ih.inv.contents.last_ne_none hmem hlast]
  | fillingGetPanic hx hkey filler hroom hcount hvalue hm ih =>
    rcases fillingGet_inv ih.inv ih.keyOps ih.keys hkey filler hroom hcount with
      ⟨value, hlast, -⟩ | ⟨-, -, hres⟩ | ⟨value, m', hlast, hfiller, -⟩
    · rw [hlast] at hvalue
      cases hvalue
    · rw [hm] at hres
      cases hres
      exact ⟨ih.reachable, ih.desc_eq, ih.inv, ih.keys, hzero⟩
    · rw [hlast, hfiller] at hvalue
      cases hvalue

/-- The table of a mapping has every index in exactly one slot, an empty slot, and elements
that fit their width. -/
structure TableInvariants (m : Mapping Key M) : Prop where
  once : ∀ j < m.fields.length, ∃ i, (i < 2 ^ m.tableLengthShift ∧ m.slot i = some j) ∧
    ∀ i', i' < 2 ^ m.tableLengthShift → m.slot i' = some j → i' = i
  index_lt : ∀ i < 2 ^ m.tableLengthShift, ∀ j, m.slot i = some j → j < m.fields.length
  exists_empty : ∃ i < 2 ^ m.tableLengthShift, m.slot i = none
  length : m.table.length = 2 ^ m.tableLengthShift
  width : ∀ p ∈ m.table, p < 2 ^ elementBits m.tableElementShift
  index_fits : ∀ j < m.fields.length, j < emptyMarker m.tableElementShift

/-- The fields are the keys in the order in which they were first set, each once and with
the value last set for it. -/
structure MappingState.Refines (x : MappingState M) : Prop where
  order_eq : x.mapping.fields.map (fun f => f.key.2) = x.order
  nodup : x.order.Nodup
  last_eq : ∀ f ∈ x.mapping.fields, x.last f.key.2 = some f.value
  absent : ∀ k, k ∉ x.order → x.last k = none

/-- Every operation on a string of the run returns what the ordered map says: `get` the value
last set, or nil; `set` no panic code for a value that the member type of its key contains, and
the code of a store that is not allowed for every other one; `filling_get` the value last set, the
filler value when there is none, and a panic when there is no filler value either. -/
structure MappingState.Answers (hashKey : HashKey) (desc : MappingDesc M) (x : MappingState M) :
    Prop where
  get : ∀ key ∈ x.store.strings, x.mapping.get (keyEq x.store.heap.mem)
    (keyHash hashKey x.store.heap.mem) key = some ((x.last key.2).getD taggedNil)
  initMember : ∀ key ∈ x.store.strings, key.2 ∉ x.order → 0 < x.inits → ∀ value,
    (x.mapping.initMember (keyHash hashKey x.store.heap.mem) key value).isSome
  set : ∀ key ∈ x.store.strings, (key.2 ∉ x.order → GrowMakesRoom x.mapping) →
    (orderSet x.order key.2).length < 2 ^ 29 → ∀ contains isExact value,
    (x.mapping.set (keyEq x.store.heap.mem) (keyHash hashKey x.store.heap.mem) contains isExact
      key value).map Prod.fst =
        some (if contains (memberTypeFor desc x.order key.2) value = true then none
          else some (storePanicCode isExact .mappingStore))
  fillingGet : ∀ key ∈ x.store.strings, (key.2 ∉ x.order → GrowMakesRoom x.mapping) →
    (orderSet x.order key.2).length < 2 ^ 29 → ∀ filler,
    (x.mapping.fillingGet (keyEq x.store.heap.mem) (keyHash hashKey x.store.heap.mem) filler
      key).map Prod.fst = some (((x.last key.2).or filler).elim (.error .noFiller) .ok)

theorem MappingState.Valid.tableInvariants (hv : x.Valid hashKey desc) :
    TableInvariants x.mapping := by
  have ht := hv.inv.table
  have hlen := hv.inv.half
  refine ⟨fun j hj => ?_, fun i hi j hij => ?_, ?_, ht.length, ht.width, fun j hj => ?_⟩
  · have hj' : j < (x.mapping.fields.map fun f =>
        homeSlot x.mapping.tableLengthShift (textHash hashKey f.key.2)).length := by
      rwa [List.length_map]
    obtain ⟨d, hd, hslot, -⟩ := ht.valid.found j hj'
    have hlt := probe_lt (ht.valid.home_lt _ (List.getElem_mem hj')) hd
    exact ⟨_, ⟨hlt, hslot⟩, fun i' hi' hslot' => ht.valid.once _ hi' _ hlt j hslot' hslot⟩
  · have := ht.valid.entry_lt i hi j hij
    rwa [List.length_map] at this
  · exact ht.valid.exists_empty (by rw [List.length_map]; exact hv.inv.half_lt)
  · exact ht.lt_emptyMarker (by omega)

theorem MappingState.Valid.answers (hv : x.Valid hashKey desc) : x.Answers hashKey desc := by
  refine ⟨fun key hkey => get_eq hv.inv hv.keyOps hv.keys hkey,
    fun key hkey hnew hinits value => ?_, fun key hkey hroom hcount contains isExact value => ?_,
    fun key hkey hroom hcount filler => ?_⟩
  · obtain ⟨hlen, hlt⟩ := hv.inits hinits
    obtain ⟨m, hres, -⟩ :=
      initMember_inv hv.inv hv.keyOps hkey hnew (by omega) hlt value
    rw [hres]
    rfl
  · rw [← hv.desc_eq]
    rcases set_inv hv.inv hv.keyOps hv.keys hkey contains isExact value hroom hcount with
      ⟨hno, hres⟩ | ⟨hyes, m, hres, -, -⟩
    · rw [hres, hno]
      rfl
    · rw [hres, hyes]
      rfl
  · rcases fillingGet_inv hv.inv hv.keyOps hv.keys hkey filler hroom hcount with
      ⟨value, hlast, hres⟩ | ⟨hlast, hfiller, hres⟩ | ⟨value, m, hlast, hfiller, hres, -, -⟩
    · rw [hres, hlast]
      rfl
    · rw [hres, hlast, hfiller]
      rfl
    · rw [hres, hlast, hfiller]
      rfl

/-- In every state of a run the mapping refines the finite map in insertion order, its table
invariants hold, and every operation answers what the finite map says. The capacity counts fields
too: it is the number of fields of a mapping constructor, or `0`. -/
theorem mapping_refines_ordered_map (hcap : capacity < 2 ^ 29)
    (hx : Run hashKey desc capacity x) :
    x.Refines ∧ TableInvariants x.mapping ∧ x.Answers hashKey desc := by
  have hv := hx.valid hcap
  have hc := hv.inv.contents
  exact ⟨⟨hc.order_eq, hc.nodup, hc.last_eq, hc.absent⟩, hv.tableInvariants, hv.answers⟩

end Run

def helloMapping : Mapping Key Unit := (mappingConstruct ⟨(), []⟩ 0).get (by decide +kernel)

/-- The mapping after the constant "hello world" was set to the empty string. -/
def helloSet : Option PanicCode × Mapping Key Unit :=
  (helloMapping.set (keyEq helloStore.heap.mem) (keyHash hashDefineKey helloStore.heap.mem)
    (fun _ _ => true) false (helloLiteral.2, "hello world".toList) taggedStringEmpty).get
    (by decide +kernel)

/-- The same mapping after a `filling_get` of "world", for which the filler value is "hello ". -/
def helloFilled : Except PanicCode TaggedPtr × Mapping Key Unit :=
  (helloSet.2.fillingGet (keyEq helloStore.heap.mem) (keyHash hashDefineKey helloStore.heap.mem)
    (some 0x25FF206F6C6C6568#64) (0x25FFFF646C726F77#64, "world".toList)).get (by decide +kernel)

/-- The text "hello world" put together at run time is the key that was set, "world" has the filler
value, a value that the member type does not contain is refused, and "hello " has no value. -/
theorem mapping_refines_ordered_map_hello :
    (helloFilled.2.fields.map fun f => f.key.2) = ["hello world".toList, "world".toList] ∧
    helloFilled.2.get (keyEq helloStore.heap.mem) (keyHash hashDefineKey helloStore.heap.mem)
      (helloConcat.2, "hello ".toList ++ "world".toList) = some taggedStringEmpty ∧
    helloFilled.2.get (keyEq helloStore.heap.mem) (keyHash hashDefineKey helloStore.heap.mem)
      (0x25FFFF646C726F77#64, "world".toList) = some 0x25FF206F6C6C6568#64 ∧
    (helloFilled.2.set (keyEq helloStore.heap.mem) (keyHash hashDefineKey helloStore.heap.mem)
      (fun _ _ => false) false (0x25FFFF646C726F77#64, "world".toList) taggedNil).map Prod.fst =
        some (some .mappingStore) ∧
    helloFilled.2.get (keyEq helloStore.heap.mem) (keyHash hashDefineKey helloStore.heap.mem)
      (0x25FF206F6C6C6568#64, "hello ".toList) = some taggedNil ∧
    TableInvariants helloFilled.2 := by
  have h0 : Run hashDefineKey ⟨(), []⟩ 0 ⟨helloStore, helloMapping, [], fun _ => none, 0⟩ :=
    .construct helloStore_reachable (Option.some_get _).symm
  have hroom : GrowMakesRoom helloMapping := fun _ => ⟨4, by decide +kernel, by decide +kernel⟩
  have hkey : (helloLiteral.2, "hello world".toList) ∈ helloStore.strings := .head _
  have hconcat : (helloConcat.2, "hello ".toList ++ "world".toList) ∈ helloStore.strings :=
    .tail _ (.head _)
  have hworld : (0x25FFFF646C726F77#64, "world".toList) ∈ helloStore.strings :=
    .tail _ (.tail _ (.head _))
  have hhello : (0x25FF206F6C6C6568#64, "hello ".toList) ∈ helloStore.strings :=
    .tail _ (.tail _ (.tail _ (.head _)))
  have hset : helloMapping.set (keyEq helloStore.heap.mem)
      (keyHash hashDefineKey helloStore.heap.mem) (fun _ _ => true) false
      (helloLiteral.2, "hello world".toList) taggedStringEmpty = some helloSet :=
    (Option.some_get _).symm
  have h1 := h0.set hkey (fun _ _ => true) false taggedStringEmpty (fun _ => hroom)
    (by decide +kernel) rfl hset
  -- the array has room for four fields now
  have hroom' : GrowMakesRoom helloSet.2 := fun hfull => absurd hfull (by decide +kernel)
  have hfilled : helloSet.2.fillingGet (keyEq helloStore.heap.mem)
      (keyHash hashDefineKey helloStore.heap.mem) (some 0x25FF206F6C6C6568#64)
      (0x25FFFF646C726F77#64, "world".toList) = some helloFilled :=
    (Option.some_get _).symm
  have hlast : (Function.update (fun _ => none) "hello world".toList (some taggedStringEmpty)
      "world".toList).or (some 0x25FF206F6C6C6568#64) = some 0x25FF206F6C6C6568#64 := by
    decide +kernel
  have h2 := h1.fillingGet hworld (some 0x25FF206F6C6C6568#64) (fun _ => hroom')
    (by decide +kernel) hlast hfilled
  obtain ⟨hrefines, htable, hanswers⟩ := mapping_refines_ordered_map (by decide) h2
  refine ⟨hrefines.order_eq.trans (by decide +kernel), ?_, ?_, ?_, ?_, htable⟩
  · exact (hanswers.get _ hconcat).trans (by decide +kernel)
  · exact (hanswers.get _ hworld).trans (by decide +kernel)
  · exact hanswers.set _ hworld (fun hnew => absurd hnew (by decide +kernel)) (by decide +kernel)
      (fun _ _ => false) false taggedNil
  · exact (hanswers.get _ hhello).trans (by decide +kernel)

end Nballerina.Runtime
