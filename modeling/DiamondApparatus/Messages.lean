import DiamondApparatus.Lib.Buffer

/-!
# The message types (`messages.h`)

`noDataMsg type` and `strMsg type name msg` are the bytes of a `NoDataMsg` and of a `StrMsg` whose
256-byte field held `msg` before the name was copied into it.
-/

namespace DiamondApparatus
open Lib

/-! ## Client to server -/

def csPublish : UInt32 := 1
def csSubscribe : UInt32 := 2
def csKillserver : UInt32 := 3
def csClearserver : UInt32 := 4

/-! ## Server to client -/

def scNotify : UInt32 := 20
def scKillclient : UInt32 := 30

/-! ## Layouts -/

def noDataMsg (type : UInt32) : Bytes := be32 type

/-- The contents of the uninitialised field `char msg[256]`. -/
abbrev MsgField := { m : Bytes // m.length = 256 }

def MsgField.zero : MsgField := ⟨List.replicate 256 0, List.length_replicate⟩

/-- A `StrMsg` on the stack: the type and the field after `strcpy(p.msg,name)`. -/
def strMsg (type : UInt32) (name : CString) (msg : MsgField) : Bytes :=
  be32 type ++ overlay msg.1 0 name.mem

theorem strMsg_eq (type : UInt32) {name : CString} (h : name.length ≤ 255) (msg : MsgField) :
    strMsg type name msg = be32 type ++ (name.mem ++ msg.1.drop (name.length + 1)) := by
  have hmsg := msg.2
  have hmem : name.mem.take msg.1.length = name.mem :=
    List.take_of_length_le (by rw [CString.length_mem]; omega)
  simp [strMsg, overlay, hmem]

end DiamondApparatus
