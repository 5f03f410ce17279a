import RtThread.Kernel.Rtdef
import RtThread.Library.CircularFifo
import RtThread.Library.Transition

/-!
# Ring buffer of the device drivers

A pair of 15-bit indices with a mirror bit each, over the bytes from `bufferPtr`
on. Every access is checked: a function answers `none` when it would touch a
byte of the buffer at or past `buffer_size`, or a byte behind the end of the
caller's data. Indices never exceed the size, so their differences are naturals.
-/
namespace RtThread
open CircularFifo

structure Ringbuffer where
  bufferPtr : ℕ → UInt8
  readMirror : Bool
  readIndex : ℕ
  writeMirror : Bool
  writeIndex : ℕ
  bufferSize : ℕ

inductive RingbufferState where
  | empty | full | halffull
  deriving DecidableEq, Repr

namespace Ringbuffer

def rtRingbufferInit (pool : ℕ → UInt8) (size : ℕ) : Ringbuffer :=
  { bufferPtr := pool
    readMirror := false, readIndex := 0
    writeMirror := false, writeIndex := 0
    bufferSize := rtAlignDown size rtAlignSize }

def rtRingbufferStatus (rb : Ringbuffer) : RingbufferState :=
  if rb.readIndex = rb.writeIndex then
    if rb.readMirror = rb.writeMirror then .empty else .full
  else .halffull

/-- The size of data in `rb`. -/
def rtRingbufferDataLen (rb : Ringbuffer) : ℕ :=
  match rb.rtRingbufferStatus with
  | .empty => 0
  | .full => rb.bufferSize
  | .halffull =>
    if rb.writeIndex > rb.readIndex then rb.writeIndex - rb.readIndex
    else uint16 (rb.bufferSize - (rb.readIndex - rb.writeIndex))

/-- The size of empty space in `rb`, an `int`. -/
def rtRingbufferSpaceLen (rb : Ringbuffer) : ℤ := rb.bufferSize - rb.rtRingbufferDataLen

/-- Assignment to a 15-bit index field. -/
def index15 (n : ℕ) : ℕ := n % 2 ^ 15

/-- `memcpy(&rb->buffer_ptr[index], &ptr[start], n)`. -/
def copyIn (rb : Ringbuffer) (index : ℕ) (ptr : List UInt8) (start n : ℕ) : Option Ringbuffer :=
  if index + n ≤ rb.bufferSize ∧ start + n ≤ ptr.length then
    some { rb with bufferPtr := overwrite rb.bufferPtr index ((ptr.drop start).take n) }
  else none

/-- `memcpy(…, &rb->buffer_ptr[index], n)`: the bytes it delivers. -/
def copyOut (rb : Ringbuffer) (index n : ℕ) : Option (List UInt8) :=
  if index + n ≤ rb.bufferSize then some (slice rb.bufferPtr index n) else none

/-- `rb->buffer_ptr[index] = ch`. -/
def storeByte (rb : Ringbuffer) (index : ℕ) (ch : UInt8) : Option Ringbuffer :=
  if index < rb.bufferSize then
    some { rb with bufferPtr := Function.update rb.bufferPtr index ch }
  else none

/-- `rb->buffer_ptr[index]`. -/
def loadByte (rb : Ringbuffer) (index : ℕ) : Option UInt8 :=
  if index < rb.bufferSize then some (rb.bufferPtr index) else none

/-- The block of both put functions for data that ends before the last slot. -/
def putStraight (rb : Ringbuffer) (ptr : List UInt8) (length : ℕ) : Option Ringbuffer :=
  (rb.copyIn rb.writeIndex ptr 0 length).map fun rb =>
    { rb with writeIndex := index15 (rb.writeIndex + length) }

/-- The block of both put functions for data that goes into the other mirror. -/
def putAround (rb : Ringbuffer) (ptr : List UInt8) (length : ℕ) : Option Ringbuffer :=
  let first := rb.bufferSize - rb.writeIndex
  (rb.copyIn rb.writeIndex ptr 0 first).bind fun rb =>
    (rb.copyIn 0 ptr first (length - first)).map fun rb =>
      { rb with writeMirror := !rb.writeMirror, writeIndex := index15 (length - first) }

/-- The write index moves on by one byte; behind the last slot the mirror flips. -/
def nextWrite (rb : Ringbuffer) : Ringbuffer :=
  if (rb.writeIndex : ℤ) = rb.bufferSize - 1 then
    { rb with writeMirror := !rb.writeMirror, writeIndex := 0 }
  else
    { rb with writeIndex := index15 (rb.writeIndex + 1) }

def nextRead (rb : Ringbuffer) : Ringbuffer :=
  if (rb.readIndex : ℤ) = rb.bufferSize - 1 then
    { rb with readMirror := !rb.readMirror, readIndex := 0 }
  else
    { rb with readIndex := index15 (rb.readIndex + 1) }

/-- The buffer afterwards and the number of bytes put. -/
def rtRingbufferPut (rb : Ringbuffer) (ptr : List UInt8) (length : ℕ) :
    Option (Ringbuffer × ℕ) :=
  let size := uint16 rb.rtRingbufferSpaceLen
  if size = 0 then some (rb, 0)
  else
    let length := if size < length then size else length
    if rb.bufferSize - rb.writeIndex > length then
      (rb.putStraight ptr length).map fun rb => (rb, length)
    else
      (rb.putAround ptr length).map fun rb => (rb, length)

def rtRingbufferPutForce (rb : Ringbuffer) (ptr : List UInt8) (length : ℕ) :
    Option (Ringbuffer × ℕ) :=
  let spaceLength := uint16 rb.rtRingbufferSpaceLen
  let length := if length > spaceLength then rb.bufferSize else length
  if rb.bufferSize - rb.writeIndex > length then
    (rb.putStraight ptr length).map fun rb =>
      (if length > spaceLength then { rb with readIndex := rb.writeIndex } else rb, length)
  else
    (rb.putAround ptr length).map fun rb =>
      (if length > spaceLength then
        { rb with readMirror := !rb.readMirror, readIndex := rb.writeIndex }
      else rb, length)

/-- The buffer afterwards, the number of bytes got and the bytes. -/
def rtRingbufferGet (rb : Ringbuffer) (length : ℕ) : Option (Ringbuffer × ℕ × List UInt8) :=
  let size := rb.rtRingbufferDataLen
  if size = 0 then some (rb, 0, [])
  else
    let length := if size < length then size else length
    let first := rb.bufferSize - rb.readIndex
    if first > length then
      (rb.copyOut rb.readIndex length).map fun bytes =>
        ({ rb with readIndex := index15 (rb.readIndex + length) }, length, bytes)
    else
      (rb.copyOut rb.readIndex first).bind fun bytes =>
        (rb.copyOut 0 (length - first)).map fun rest =>
          ({ rb with readMirror := !rb.readMirror, readIndex := index15 (length - first) },
            length, bytes ++ rest)

def rtRingbufferPutchar (rb : Ringbuffer) (ch : UInt8) : Option (Ringbuffer × ℕ) :=
  if rb.rtRingbufferSpaceLen = 0 then some (rb, 0)
  else
    (rb.storeByte rb.writeIndex ch).map fun rb => (rb.nextWrite, 1)

def rtRingbufferPutcharForce (rb : Ringbuffer) (ch : UInt8) : Option (Ringbuffer × ℕ) :=
  let oldState := rb.rtRingbufferStatus
  (rb.storeByte rb.writeIndex ch).map fun rb =>
    if (rb.writeIndex : ℤ) = rb.bufferSize - 1 then
      let rb := { rb with writeMirror := !rb.writeMirror, writeIndex := 0 }
      (if oldState = .full then
        { rb with readMirror := !rb.readMirror, readIndex := rb.writeIndex }
      else rb, 1)
    else
      let rb := { rb with writeIndex := index15 (rb.writeIndex + 1) }
      (if oldState = .full then { rb with readIndex := rb.writeIndex } else rb, 1)

def rtRingbufferGetchar (rb : Ringbuffer) : Option (Ringbuffer × ℕ × List UInt8) :=
  if rb.rtRingbufferDataLen = 0 then some (rb, 0, [])
  else
    (rb.loadByte rb.readIndex).map fun ch => (rb.nextRead, 1, [ch])

end Ringbuffer
end RtThread
