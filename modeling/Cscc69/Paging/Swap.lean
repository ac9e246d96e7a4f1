import Cscc69.Lib.Bytes
import Cscc69.Paging.PageTable

/-!
# The swap file

A bitmap of 32-bit words says which slots of the swap file are taken. `swap_pageout` takes a slot
for a page that has none and writes the page's frame there; `swap_pagein` reads a slot into a
frame. Neither ever gives a slot back.

The system decides whether a seek succeeds and how many bytes a read or write moves. Its answers
are the `Transfer` that each of the two functions takes. A failed assertion is `none`.
-/

namespace Cscc69.Paging

open Bytes

/-! ## Bitmaps -/

structure Bitmap where
  nbits : BitVec 32
  v : ℕ → BitVec 32

def bitsPerWord : BitVec 32 := 32
def wordAllbits : BitVec 32 := 0xffffffff

def divRoundUp (a b : BitVec 32) : BitVec 32 := (a + b - 1) / b

/-- The bits from `overbits` on, which the last word has over. -/
def leftover (overbits : ℕ) : BitVec 32 :=
  (List.range' overbits (32 - overbits)).foldl (fun w j => w ||| (1 <<< j)) 0

def bitmapCreate (nbits : BitVec 32) : Option Bitmap :=
  let words := divRoundUp nbits bitsPerWord
  if words > nbits / bitsPerWord then
    let ix := words - 1
    let overbits := nbits - ix * bitsPerWord
    if nbits / bitsPerWord = words - 1 ∧ overbits > 0 ∧ overbits < bitsPerWord then
      some ⟨nbits, fun i => if i = ix.toNat then leftover overbits.toNat else 0⟩
    else none
  else some ⟨nbits, fun _ => 0⟩

/-- The first clear bit of the map, set: its index and the new map, or nothing if all bits are
set. -/
def bitmapAlloc (b : Bitmap) : Option (Option (BitVec 32 × Bitmap)) :=
  let maxix := (divRoundUp b.nbits bitsPerWord).toNat
  match (List.range maxix).find? fun ix => b.v ix ≠ wordAllbits with
  | none => some none
  | some ix =>
    match (List.range 32).find? fun offset => b.v ix &&& (1 <<< offset) = 0 with
    | none => none
    | some offset =>
      let index := BitVec.ofNat 32 (ix * 32 + offset)
      if index < b.nbits then
        some (some (index,
          { b with v := Function.update b.v ix (b.v ix ||| (1 <<< offset)) }))
      else none

/-! ## Moving pages -/

/-- The system's answers to one `lseek` and to the `read` or `write` after it. -/
structure Transfer where
  /-- the `errno` of a failed seek -/
  seekErrno : Option ℕ
  /-- the bytes moved, or nothing for `-1` -/
  moved : Option (Fin (simpagesize + 1))

/-- A seek that succeeds and a whole page moved. -/
def Transfer.whole : Transfer := ⟨none, some (Fin.last simpagesize)⟩

def Transfer.count (io : Transfer) : ℕ := (io.moved.map Fin.val).getD 0

def einval : ℕ := 22

/-- The `errno` of `lseek`, if it fails. A negative offset always does. -/
def Transfer.lseek (io : Transfer) (offset : BitVec 32) : Option ℕ :=
  if offset.toInt < 0 then some einval else io.seekErrno

structure Swap where
  map : Bitmap
  file : Mem

/-- A new swap file; `file` is what reads beyond its end find. -/
def swapInit (swapsize : BitVec 32) (file : Mem) : Option Swap :=
  (bitmapCreate swapsize).map fun map => ⟨map, file⟩

/-- `idx * SIMPAGESIZE`, the `int` that `swap_pageout` seeks to. -/
def slotOffset (idx : BitVec 32) : BitVec 32 := idx * BitVec.ofNat 32 simpagesize

/-- The offset that `swap_pageout` writes to, or nothing if there is no space for it. -/
def swapSlot (swapOffset : BitVec 32) (sw : Swap) : Option (Option (BitVec 32 × Swap)) :=
  if swapOffset = invalidSwap then
    (bitmapAlloc sw.map).map fun r => r.map fun (idx, map) =>
      (slotOffset idx, { sw with map := map })
  else some (some (swapOffset, sw))

def swapPageout (io : Transfer) (physmem : Mem) (frame : ℕ) (swapOffset : BitVec 32)
    (sw : Swap) : Option (BitVec 32 × Swap) :=
  match swapSlot swapOffset sw with
  | none => none
  | some none => some (invalidSwap, sw)
  | some (some (offset, sw)) =>
    if offset = invalidSwap then none
    else if (io.lseek offset).isSome then some (invalidSwap, sw)
    else
      let file := copy sw.file offset.toNat physmem (frame * simpagesize) io.count
      if io.count ≠ simpagesize then some (invalidSwap, { sw with file := file })
      else some (offset, { sw with file := file })

/-- Returns 0, a negative `errno`, or the number of bytes of a partial read. -/
def swapPagein (io : Transfer) (sw : Swap) (frame : ℕ) (swapOffset : BitVec 32)
    (physmem : Mem) : Option (Int × Mem) :=
  if swapOffset = invalidSwap then none
  else
    match io.lseek swapOffset with
    | some errno => some (-errno, physmem)
    | none =>
      let physmem := copy physmem (frame * simpagesize) sw.file swapOffset.toNat io.count
      if io.count ≠ simpagesize then
        some (io.moved.elim (-1) fun k => (k : Int), physmem)
      else some (0, physmem)

end Cscc69.Paging
