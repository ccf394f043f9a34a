import Cmw.Config.RoleAttributes

/-!
# Endpoints

What transmitters and receivers share: the identities of transport/common, and the
message information that carries them.
-/

namespace Cmw
namespace Transport

open Config
open Library.ByteImage

/-- `ID_SIZE` bytes, with their hash. -/
structure Identity where
  data : Vector Byte 8
  hashValue : BitVec 64
  deriving DecidableEq, Repr

def Identity.zero : Identity := { data := Vector.replicate 8 0, hashValue := 0 }

/-- `memcpy` to `data()`: the hash is left as it is. -/
def Identity.copyIn (id : Identity) (bs : List Byte) : Identity :=
  { id with data := Vector.ofFn fun i => bs.getD i 0 }

@[simp] theorem Identity.copyIn_data (id : Identity) (v : Vector Byte 8) :
    (id.copyIn v.toList).data = v := by
  ext i hi
  simp [copyIn]

structure MessageInfo where
  senderId : Identity := .zero
  spareId : Identity := .zero
  channelId : BitVec 64 := 0
  seqNum : BitVec 64 := 0
  deriving DecidableEq, Repr

/-- `Endpoint(attr)`, on a host and in a process; `id` is the hash of its new
identity. -/
def endpointAttr (attr : RoleAttributes) (hostName : Str) (processId : BitVec 32)
    (id : BitVec 64) : RoleAttributes :=
  { attr with
    -- the test is the other way round than that of the process id
    hostName := if !attr.hostName.isEmpty then hostName else attr.hostName
    processId := if attr.processId = 0 then processId else attr.processId
    id := if attr.id = 0 then id else attr.id }

end Transport
end Cmw
