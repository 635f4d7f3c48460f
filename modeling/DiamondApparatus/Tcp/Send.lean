import DiamondApparatus.Lib.Buffer

/-!
# Sending a block (`basesend` in `tcp.h`)

A block goes out as two `write` calls, its length in network order and its bytes; when one of them
does not return a positive number both are tried again, up to ten times. `Writes` says what each
`write` call does, numbered in the order of the calls.
-/

namespace DiamondApparatus
open Lib

/-- What one `write` call does: it takes all bytes, or `n` of them, or it fails and sets `errno`. -/
inductive WriteResult
  | all
  | short (n : Nat)
  | failed (errno : Nat)
  deriving DecidableEq, Repr

abbrev Writes := Nat → WriteResult

def EPIPE : Nat := 32

/-- How `basesend` ends: it returns, it gives up on a broken pipe, or it throws "cannot send". -/
inductive SendEnd
  | returned
  | brokenPipe
  | thrown
  deriving DecidableEq, Repr

/-- The bytes a `write` of `data` takes, whether its result is positive, and `errno` after it. -/
def WriteResult.write (r : WriteResult) (data : Bytes) (errno : Nat) : Bytes × Bool × Nat :=
  match r with
  | .all => (data, !data.isEmpty, errno)
  | .short n => (data.take n, !(data.take n).isEmpty, errno)
  | .failed e => ([], false, e)

/-- The rounds left of the retry loop, the next `write` call being number `k`: the bytes the socket
takes, and how the loop ends. -/
def basesendLoop (w : Writes) (data : Bytes) : Nat → Nat → Nat → Bytes × SendEnd
  | 0, _, _ => ([], .thrown)
  | n + 1, k, errno =>
    let header := (w k).write (be32 (UInt32.ofNat data.length)) errno
    let payload := (w (k + 1)).write data header.2.2
    let out := header.1 ++ payload.1
    if header.2.1 && payload.2.1 then (out, .returned)
    else if payload.2.2 = EPIPE then (out, .brokenPipe)
    else
      let rest := basesendLoop w data n (k + 2) payload.2.2
      (out ++ rest.1, rest.2)

def basesend (w : Writes) (errno : Nat) (data : Bytes) : Bytes × SendEnd :=
  basesendLoop w data 10 0 errno

/-- A block on the wire. -/
def frame (data : Bytes) : Bytes := be32 (UInt32.ofNat data.length) ++ data

/-- With both `write` calls complete, a block that is not empty goes out as one frame. -/
theorem basesend_complete {w : Writes} (h0 : w 0 = .all) (h1 : w 1 = .all) (errno : Nat)
    {data : Bytes} (hdata : data ≠ []) : basesend w errno data = (frame data, .returned) := by
  have hhead : (be32 (UInt32.ofNat data.length)).isEmpty = false := rfl
  have hpay : data.isEmpty = false := by cases data with
    | nil => exact absurd rfl hdata
    | cons b bs => rfl
  simp [basesend, basesendLoop, h0, h1, WriteResult.write, hhead, hpay, frame]

end DiamondApparatus
