import Nballerina.Lib.Memory
import Nballerina.Lib.Utf8

/-!
# Runtime strings

Mirroring `runtime/string.c`, the string part of `runtime/balrt.h`, `runtime/hash.h`,
`toHexString` of `runtime/int.c`, the messages of `runtime/panic.c` and `addStringDefn` of
`nback/scaffold.bal`.

A string is a tagged pointer. Its text is in the pointer itself (immediate), or in a
block with a header of 4 bytes (medium) or 16 (large) and zeros after the text up to a
multiple of 8.

Mirroring notes:

* a `char *` that is only read is the function giving the byte at each offset; the one
  `_bal_string_alloc` returns is a `Dest`, since it can point into the result itself;
* `_bal_alloc` and the linker choose addresses: an operation that may allocate takes the
  address it would get, and is `none` when no allocator gives it (`Heap.alloc`), or when
  the code panics;
* lengths are `Nat`: they come from blocks below `2 ^ 56`, where no sum overflows.
-/

namespace Nballerina.Runtime

open Nballerina.Lib

abbrev TaggedPtr := Word

def tagString : Word := 0x05#64 <<< 56
def immediateFlag : Word := 0x20#64 <<< 56
def stringLargeFlag : Word := 1#64
def pointerMask : Word := (1#64 <<< 56) - 1#64
def alignMask : Word := ~~~7#64

/-- `NIL`. -/
def taggedNil : TaggedPtr := 0#64

/-- `TAGGED_STRING_EMPTY`. -/
def taggedStringEmpty : TaggedPtr := immediateFlag ||| tagString ||| ((1#64 <<< 56) - 1#64)

def taggedToPtr (tp : TaggedPtr) : Nat := (tp &&& (pointerMask &&& alignMask)).toNat

def ptrAddFlags (p : Nat) (flags : Word) : TaggedPtr := BitVec.ofNat 64 p ||| flags

/-- `roundUpInt` and `roundUpUint64`. -/
def roundUp (n : Nat) : Nat := (n + 7) / 8 * 8

def mediumStringSize (lengthInBytes : Nat) : Nat := roundUp (lengthInBytes + 4)

def largeStringSize (lengthInBytes : Nat) : Nat := roundUp (lengthInBytes + 16)

structure StringLength where
  nBytes : Nat
  nCodePoints : Nat
deriving DecidableEq, Repr

/-- `__builtin_clz` works on the byte widened to 32 bits; the 24 zeros above it do not
count. -/
def immediateStringLength (bits : Word) : StringLength :=
  let loByte := byteAt bits 0
  if loByte = 0xFF#8 then
    ⟨0, 0⟩
  else if loByte &&& 0x80#8 ≠ 0#8 then
    ⟨((~~~loByte).setWidth 32).clz.toNat - 3 * 8, 1⟩
  else
    let n := 8 - ((~~~bits &&& ((1#64 <<< 56) - 1#64)).clz.toNat >>> 3)
    ⟨n, n⟩

def taggedStringLength (m : Mem) (tp : TaggedPtr) : StringLength :=
  if tp &&& immediateFlag ≠ 0#64 then
    immediateStringLength tp
  else if tp &&& stringLargeFlag = 0#64 then
    let sp := taggedToPtr tp
    ⟨m.load16 sp, m.load16 (sp + 2)⟩
  else
    let sp := taggedToPtr tp
    ⟨(m.loadWord sp).toNat, (m.loadWord (sp + 8)).toNat⟩

def taggedStringIsChar (tp : TaggedPtr) : Bool :=
  if tp &&& immediateFlag ≠ 0#64 then
    let loByte := byteAt tp 0
    if loByte &&& 0x80#8 ≠ 0#8 then
      loByte != 0xFF#8
    else
      tp ||| (~~~pointerMask ||| 0xFF#64) == -1#64
  else
    false

def taggedStringBytes (m : Mem) (tp : TaggedPtr) : Nat → Byte :=
  if tp &&& immediateFlag ≠ 0#64 then
    byteAt tp
  else if tp &&& stringLargeFlag = 0#64 then
    fun k => m (taggedToPtr tp + 4 + k)
  else
    fun k => m (taggedToPtr tp + 16 + k)

/-! ## Equality -/

/-- `while (--nInts > 0) { if (*++p1 != *++p2) return false; }`, with `n = nInts - 1`
rounds to go. -/
def heapEqLoop (m : Mem) (p1 p2 : Nat) : Nat → Bool
  | 0 => true
  | n + 1 =>
    if m.loadWord (p1 + 8) ≠ m.loadWord (p2 + 8) then false
    else heapEqLoop m (p1 + 8) (p2 + 8) n

def balStringHeapEq (m : Mem) (tp1 tp2 : TaggedPtr) : Bool :=
  let p1 := taggedToPtr tp1
  let p2 := taggedToPtr tp2
  let h1 := m.loadWord p1
  let h2 := m.loadWord p2
  if h1 ≠ h2 then
    false
  else if tp1 &&& stringLargeFlag ≠ 0#64 then
    if tp2 &&& stringLargeFlag = 0#64 then false
    else heapEqLoop m p1 p2 (largeStringSize h1.toNat >>> 3 - 1)
  else
    if tp2 &&& stringLargeFlag ≠ 0#64 then false
    else heapEqLoop m p1 p2 (mediumStringSize (h1 &&& 0xFFFF#64).toNat >>> 3 - 1)

def taggedStringEqual (m : Mem) (tp1 tp2 : TaggedPtr) : Bool :=
  if tp1 = tp2 then true
  else if tp1 &&& immediateFlag ≠ 0#64 then false
  -- one of them is immediate and the bits are not equal
  else if tp2 &&& immediateFlag ≠ 0#64 then false
  else balStringHeapEq m tp1 tp2

/-! ## Order -/

/-- `memcmp`, with the difference of the first bytes that differ for its sign. -/
def memcmp (f g : Nat → Byte) : Nat → Int
  | 0 => 0
  | n + 1 =>
    if f 0 ≠ g 0 then ((f 0).toNat : Int) - (g 0).toNat
    else memcmp (fun k => f (k + 1)) (fun k => g (k + 1)) n

/-- Like `memcmp`, but it compares `n * 8` bytes. -/
def memcmp8 (m : Mem) (p1 p2 : Nat) : Nat → Int
  | 0 => 0
  | n + 1 =>
    let b1 := m.loadWord p1
    let b2 := m.loadWord p2
    if b1 ≠ b2 then
      if bswap b1 < bswap b2 then -1 else 1
    else memcmp8 m (p1 + 8) (p2 + 8) n

def stringCmpGeneric (m : Mem) (tp1 tp2 : TaggedPtr) : Int :=
  let len1 := taggedStringLength m tp1
  let len2 := taggedStringLength m tp2
  let nBytes := if len1.nBytes ≤ len2.nBytes then len1.nBytes else len2.nBytes
  let result := memcmp (taggedStringBytes m tp1) (taggedStringBytes m tp2) nBytes
  if result ≠ 0 then result
  else (len1.nBytes : Int) - len2.nBytes

/-- The bits differ here. `shift` is the count of trailing zeros rounded down to a
multiple of 8. -/
def stringCmpImmediate (bits1 bits2 : Word) : Int :=
  let shift := (bits1 ^^^ bits2).ctz.toNat / 8 * 8
  let byte1 := (bits1 >>> shift) &&& 0xFF#64
  let byte2 := (bits2 >>> shift) &&& 0xFF#64
  if byte1 < byte2 then
    if byte2 = 0xFF#64 then 1 else -1
  else
    if byte1 = 0xFF#64 then -1 else 1

def stringCmpMedium (m : Mem) (s1 s2 : Nat) : Int :=
  let h1 := m.loadWord s1
  let h2 := m.loadWord s2
  let len1 := (h1 &&& 0xFFFF#64).toNat
  let len2 := (h2 &&& 0xFFFF#64).toNat
  let b1 := (bswap h1 &&& 0xFFFFFFFF#64).toNat
  let b2 := (bswap h2 &&& 0xFFFFFFFF#64).toNat
  let d := (b1 : Int) - b2
  if d ≠ 0 then d
  else
    let minLen := if len1 ≤ len2 then len1 else len2
    let nInts := mediumStringSize minLen >>> 3
    let result := memcmp8 m (s1 + 8) (s2 + 8) (nInts - 1)
    if result ≠ 0 then result
    else (len1 : Int) - len2

def stringCmpLarge (m : Mem) (s1 s2 : Nat) : Int :=
  let len1 := (m.loadWord s1).toNat
  let len2 := (m.loadWord s2).toNat
  let minLen := if len1 ≤ len2 then len1 else len2
  let nInts := largeStringSize minLen >>> 3
  let result := memcmp8 m (s1 + 16) (s2 + 16) (nInts - 2)
  if result ≠ 0 then result
  else (len1 : Int) - len2

def balStringCmp (m : Mem) (tp1 tp2 : TaggedPtr) : Int :=
  if tp1 = tp2 then 0
  else if tp1 &&& tp2 &&& immediateFlag ≠ 0#64 then stringCmpImmediate tp1 tp2
  else if (tp1 ^^^ tp2) &&& (immediateFlag ||| stringLargeFlag) ≠ 0#64 then
    stringCmpGeneric m tp1 tp2
  else if tp1 &&& stringLargeFlag = 0#64 then
    stringCmpMedium m (taggedToPtr tp1) (taggedToPtr tp2)
  else
    stringCmpLarge m (taggedToPtr tp1) (taggedToPtr tp2)

/-- `CompareResult`. -/
inductive CompareResult where
  | un
  | lt
  | eq
  | gt
deriving DecidableEq, Repr

def intCompare (n1 n2 : Int) : CompareResult :=
  if n1 = n2 then .eq
  else if n1 < n2 then .lt else .gt

def optStringCompare (m : Mem) (tp1 tp2 : TaggedPtr) : CompareResult :=
  if tp1 = taggedNil then
    if tp2 = taggedNil then .eq else .un
  else if tp2 = taggedNil then .un
  else intCompare (balStringCmp m tp1 tp2) 0

/-! ## Hashing -/

/-- `_bal_hash_key`, which `main` may set. -/
structure HashKey where
  init : Word
  finish : Word
deriving DecidableEq, Repr

/-- `HASH_DEFINE_KEY`. -/
def hashDefineKey : HashKey := ⟨0x243F6A8885A308D3#64, 0x13198A2E03707344#64⟩

def hashFoldedMultiply (x y : Word) : Word :=
  let xy : BitVec 128 := x.setWidth 128 * y.setWidth 128
  xy.setWidth 64 ^^^ (xy >>> 64).setWidth 64

def hashUpdate (h data : Word) : Word := hashFoldedMultiply (data ^^^ h) 6364136223846793005#64

/-- The number of bytes with information is not used. -/
def hashUpdatePartial (h data : Word) (_nBytes : Nat) : Word := hashUpdate h data

def hashRotateLeft (bits : Word) (rotate : Nat) : Word :=
  (bits <<< rotate) ||| (bits >>> (64 - rotate))

def hashFinish (key : HashKey) (h : Word) : Word :=
  hashRotateLeft (hashFoldedMultiply h key.finish) (h &&& 63#64).toNat

def immediateStringHash (h bits : Word) : Word :=
  let len := immediateStringLength bits
  hashUpdatePartial h (bits &&& ((1#64 <<< (8 * len.nBytes)) - 1#64)) len.nBytes

/-- `for (i = first; i < first + n; i++) hashUpdate(hp, ip[i])`. -/
def hashUpdates (m : Mem) (ip : Nat) (h : Word) (first : Nat) : Nat → Word
  | 0 => h
  | n + 1 => hashUpdates m ip (hashUpdate h (m.loadWord (ip + 8 * first))) (first + 1) n

/-- The hash has the first 4 bytes moved after the other ones. -/
def mediumStringHash (m : Mem) (h : Word) (ip : Nat) : Word :=
  let start := m.loadWord ip
  let len := (start &&& 0xFFFF#64).toNat
  let start := start >>> 32
  if len ≤ 4 then
    if len ≠ 0 then hashUpdatePartial h start len else h
  else
    let nBytes := mediumStringSize len
    let nInts := nBytes >>> 3
    let nPad := nBytes - (len + 4)
    let nCompleteInts := if nPad ≠ 0 then nInts - 1 else nInts
    let h := hashUpdates m ip h 1 (nCompleteInts - 1)
    if nPad = 0 then hashUpdatePartial h start 4
    else
      let shift := 8 * (8 - nPad)
      -- fill in the padding bytes of last from bottom 4 bytes of start
      let last := m.loadWord (ip + 8 * nCompleteInts) ||| (start <<< shift)
      if nPad > 4 then hashUpdatePartial h last (12 - nPad)
      else
        let h := hashUpdate h last
        if nPad = 4 then h
        else hashUpdatePartial h (start >>> (64 - shift)) (4 - nPad)

def largeStringHash (m : Mem) (h : Word) (ip : Nat) : Word :=
  let len := (m.loadWord ip).toNat
  let nBytes := largeStringSize len
  let nInts := nBytes >>> 3
  let nPad := nBytes - (len + 16)
  let nCompleteInts := if nPad ≠ 0 then nInts - 1 else nInts
  let h := hashUpdates m ip h 2 (nCompleteInts - 2)
  if nPad ≠ 0 then hashUpdatePartial h (m.loadWord (ip + 8 * nCompleteInts)) nPad else h

def balStringHash (key : HashKey) (m : Mem) (tp : TaggedPtr) : Word :=
  let h :=
    if tp &&& immediateFlag ≠ 0#64 then immediateStringHash key.init tp
    else if tp &&& stringLargeFlag = 0#64 then mediumStringHash m key.init (taggedToPtr tp)
    else largeStringHash m key.init (taggedToPtr tp)
  hashFinish key h

/-! ## Construction -/

/-- Where the text of a new string goes: into the tagged pointer, or to an address. -/
inductive Dest where
  | result
  | block (p : Nat)
deriving DecidableEq, Repr

/-- A string under construction. -/
structure StringAlloc where
  heap : Heap
  result : TaggedPtr
  bytes : Dest

def balStringAlloc (h : Heap) (p lengthInBytes lengthInCodePoints : Nat) : Option StringAlloc :=
  if lengthInCodePoints = 1 ∨ (lengthInCodePoints = lengthInBytes ∧ lengthInBytes ≤ 0x7) then
    -- pad with 0xFF
    some ⟨h, immediateFlag ||| tagString ||| ((1#64 <<< 56) - 1#64), .result⟩
  else if lengthInBytes ≤ 0xFFFF then do
    let size := mediumStringSize lengthInBytes
    let h ← h.alloc p size
    -- all padding bytes are in the last 8 bytes
    let m := h.mem.write (p + size - 8) (leBytes 8 0)
    let m := m.write p (leBytes 2 lengthInBytes)
    let m := m.write (p + 2) (leBytes 2 lengthInCodePoints)
    some ⟨⟨m, h.used⟩, ptrAddFlags p tagString, .block (p + 4)⟩
  else if lengthInBytes > 9223372036854775807 then
    none
  else do
    let size := largeStringSize lengthInBytes
    let h ← h.alloc p size
    let m := h.mem.write (p + size - 8) (leBytes 8 0)
    let m := m.write p (leBytes 8 lengthInBytes)
    let m := m.write (p + 8) (leBytes 8 lengthInCodePoints)
    some ⟨⟨m, h.used⟩, ptrAddFlags p (tagString ||| stringLargeFlag), .block (p + 16)⟩

/-- `memcpy(bytes + offset, src, src.length)` into a string under construction. -/
def StringAlloc.memcpy (a : StringAlloc) (offset : Nat) (src : List Byte) : StringAlloc :=
  match a.bytes with
  | .result =>
    { a with
      result := wordOf fun k =>
        if offset ≤ k ∧ k < offset + src.length then padded src (k - offset)
        else byteAt a.result k }
  | .block q => { a with heap := ⟨a.heap.mem.write (q + offset) src, a.heap.used⟩ }

/-- The first `n` bytes at a `char *`. -/
def firstBytes (bytes : Nat → Byte) (n : Nat) : List Byte := (List.range n).map bytes

def balStringConcat (h : Heap) (p : Nat) (tp1 tp2 : TaggedPtr) : Option (Heap × TaggedPtr) := do
  let len1 := taggedStringLength h.mem tp1
  let len2 := taggedStringLength h.mem tp2
  let a ← balStringAlloc h p (len1.nBytes + len2.nBytes) (len1.nCodePoints + len2.nCodePoints)
  let a := a.memcpy 0 (firstBytes (taggedStringBytes a.heap.mem tp1) len1.nBytes)
  let a := a.memcpy len1.nBytes (firstBytes (taggedStringBytes a.heap.mem tp2) len2.nBytes)
  some (a.heap, a.result)

/-- What `sprintf` puts into the buffer. -/
def hexText (i : Word) : List Char :=
  if i.toInt < 0 then '-' :: Nat.toDigits 16 (-i).toNat else Nat.toDigits 16 i.toNat

def toHexString (h : Heap) (p : Nat) (i : Word) : Option (Heap × TaggedPtr) := do
  let buf := utf8 (hexText i)
  let a ← balStringAlloc h p buf.length buf.length
  let a := a.memcpy 0 buf
  some (a.heap, a.result)

/-! ## Constants -/

def isSmallString (nCodePoints nBytes : Nat) : Bool :=
  nCodePoints == 1 || (nBytes == nCodePoints && nBytes ≤ 7)

/-- The bytes with zeros up to the padded length. -/
def padBytes (bytes : List Byte) (headerSize : Nat) : List Byte :=
  let nBytesPadded := (((bytes.length + headerSize + 7) >>> 3) <<< 3) - headerSize
  bytes ++ List.replicate (nBytesPadded - bytes.length) 0#8

/-- A constant that the linker puts at `p`, aligned to 8 bytes. -/
def addGlobal (h : Heap) (p : Nat) (initializer : List Byte) : Option Heap := do
  let h ← h.alloc p initializer.length
  some ⟨h.mem.write p initializer, h.used⟩

/-- The tag is added to the address by a `getelementptr`. -/
def addStringDefn (h : Heap) (p : Nat) (str : List Char) : Option (Heap × TaggedPtr) :=
  let nCodePoints := str.length
  let bytes := utf8 str
  let nBytes := bytes.length
  if isSmallString nCodePoints nBytes then
    let encoded := (List.range 7).foldl (fun encoded i =>
      encoded ||| ((if i < nBytes then padded bytes i else 0xFF#8).setWidth 64 <<< (i * 8))) 0#64
    some (h, encoded ||| (immediateFlag ||| tagString))
  else if nBytes ≤ 0xFFFF then do
    let h ← addGlobal h p (leBytes 2 nBytes ++ leBytes 2 nCodePoints ++ padBytes bytes 4)
    some (h, BitVec.ofNat 64 p + (tagString ||| 0#64))
  else do
    let h ← addGlobal h p (leBytes 8 nBytes ++ leBytes 8 nCodePoints ++ padBytes bytes 16)
    some (h, BitVec.ofNat 64 p + (tagString ||| 1#64))

/-- `PanicCode`. -/
inductive PanicCode where
  | arithmeticOverflow
  | divideByZero
  | typeCast
  | stackOverflow
  | indexOutOfBounds
  | listTooLong
  | stringTooLong
  | listStore
  | mappingStore
  | noFiller
  | internalError
  | invalidDecimal
deriving DecidableEq, Repr

/-- `panicMessageStrings`. -/
def panicMessage : PanicCode → String
  | .arithmeticOverflow => "arithmetic overflow"
  | .divideByZero => "divide by zero"
  | .typeCast => "bad type cast"
  | .stackOverflow => "stack overflow"
  | .indexOutOfBounds => "index out of bounds"
  | .listTooLong => "list too long"
  | .stringTooLong => "string too long"
  | .listStore => "bad list store"
  | .mappingStore => "bad mapping store"
  | .noFiller => "no filler value"
  | .internalError => "internal error"
  | .invalidDecimal => "not a valid decimal"

/-- `DECL_MEDIUM_STRING_13_19` and the tagging in `_bal_panic_construct`: the text fills an
array of 20 bytes, the rest of it zero. -/
def panicMessageString (h : Heap) (p : Nat) (code : PanicCode) : Option (Heap × TaggedPtr) := do
  let str := utf8 (panicMessage code).toList
  let h ← addGlobal h p (leBytes 2 str.length ++ leBytes 2 str.length ++
    (str ++ List.replicate (20 - str.length) 0#8))
  some (h, ptrAddFlags p tagString)

end Nballerina.Runtime
