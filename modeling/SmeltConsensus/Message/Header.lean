import Mathlib.Algebra.Group.Nat.Defs
import Mathlib.Data.Nat.Basic

/-!
The message of the consensus service: seven machine words, of which word 0
packs the tag, the client id and the request id and words 4 to 6 are the
payload. Words are natural numbers; the header accessors truncate to the width
of the C type they read or write, and a 64-bit counter that grows by one for
each request is not wrapped.
-/

set_option autoImplicit false
set_option relaxedAutoImplicit false

namespace SmeltConsensus.Message.Header

@[simp] def SETUP_TAG : Nat := 0

@[simp] def REQ_TAG : Nat := 1

@[simp] def RESP_TAG : Nat := 2

/-- Bits 48 to 63, the `uint16_t` at index 3 of a little-endian word. -/
def getTag (w : Nat) : Nat := w / 2 ^ 48 % 2 ^ 16

def setTag (w : Nat) (tag : Nat) : Nat := tag % 2 ^ 16 * 2 ^ 48 + w % 2 ^ 48

/-- Bits 32 to 47, the `uint16_t` at index 2. -/
def getClientId (w : Nat) : Nat := w / 2 ^ 32 % 2 ^ 16

def setClientId (w : Nat) (cid : Nat) : Nat :=
  w / 2 ^ 48 % 2 ^ 16 * 2 ^ 48 + cid % 2 ^ 16 * 2 ^ 32 + w % 2 ^ 32

/-- Bits 0 to 31, the `uint32_t` at index 0. -/
def getRequestId (w : Nat) : Nat := w % 2 ^ 32

def setRequestId (w : Nat) (rid : Nat) : Nat :=
  w / 2 ^ 32 % 2 ^ 32 * 2 ^ 32 + rid % 2 ^ 32

@[simp] theorem getTag_setTag (w : Nat) (tag : Nat) :
    getTag (setTag w tag) = tag % 2 ^ 16 := by
  unfold getTag setTag
  omega

@[simp] theorem getTag_setClientId (w : Nat) (cid : Nat) :
    getTag (setClientId w cid) = getTag w := by
  unfold getTag setClientId
  omega

@[simp] theorem getTag_setRequestId (w : Nat) (rid : Nat) :
    getTag (setRequestId w rid) = getTag w := by
  unfold getTag setRequestId
  omega

@[simp] theorem getClientId_setTag (w : Nat) (tag : Nat) :
    getClientId (setTag w tag) = getClientId w := by
  unfold getClientId setTag
  omega

@[simp] theorem getClientId_setClientId (w : Nat) (cid : Nat) :
    getClientId (setClientId w cid) = cid % 2 ^ 16 := by
  unfold getClientId setClientId
  omega

@[simp] theorem getClientId_setRequestId (w : Nat) (rid : Nat) :
    getClientId (setRequestId w rid) = getClientId w := by
  unfold getClientId setRequestId
  omega

@[simp] theorem getRequestId_setTag (w : Nat) (tag : Nat) :
    getRequestId (setTag w tag) = getRequestId w := by
  unfold getRequestId setTag
  omega

@[simp] theorem getRequestId_setClientId (w : Nat) (cid : Nat) :
    getRequestId (setClientId w cid) = getRequestId w := by
  unfold getRequestId setClientId
  omega

@[simp] theorem getRequestId_setRequestId (w : Nat) (rid : Nat) :
    getRequestId (setRequestId w rid) = rid % 2 ^ 32 := by
  unfold getRequestId setRequestId
  omega

@[simp] theorem setTag_setTag (w : Nat) (a b : Nat) :
    setTag (setTag w a) b = setTag w b := by
  unfold setTag
  omega

/-- The three words that `exec_fn` sees. -/
structure Payload where
  word0 : Nat
  word1 : Nat
  word2 : Nat
  deriving DecidableEq, Repr

/-- A command: the payload, and the header ids that name its request. -/
structure Command where
  clientId : Nat
  requestId : Nat
  payload : Payload
  deriving DecidableEq, Repr

/-- `struct smlt_msg` with its seven words `data[0]` to `data[6]`. -/
structure SmltMsg where
  data0 : Nat
  data1 : Nat
  data2 : Nat
  data3 : Nat
  data4 : Nat
  data5 : Nat
  data6 : Nat
  deriving DecidableEq, Repr

namespace SmltMsg

def tag (msg : SmltMsg) : Nat := getTag msg.data0

def clientId (msg : SmltMsg) : Nat := getClientId msg.data0

def requestId (msg : SmltMsg) : Nat := getRequestId msg.data0

def withTag (msg : SmltMsg) (tag : Nat) : SmltMsg := { msg with data0 := setTag msg.data0 tag }

/-- The payload words, from `&msg->data[4]` on. -/
def payload (msg : SmltMsg) : Payload := ⟨msg.data4, msg.data5, msg.data6⟩

def command (msg : SmltMsg) : Command := ⟨msg.clientId, msg.requestId, msg.payload⟩

/-- What `consensus_send_request` writes into the client's message buffer. -/
def stamp (buf : SmltMsg) (id requestCount recvFrom : Nat) (payload : Payload) : SmltMsg :=
  { buf with
    data0 := setRequestId (setClientId (setTag buf.data0 REQ_TAG) id) requestCount
    data3 := recvFrom
    data4 := payload.word0
    data5 := payload.word1
    data6 := payload.word2 }

@[simp] theorem tag_withTag (msg : SmltMsg) (tag : Nat) :
    (msg.withTag tag).tag = tag % 2 ^ 16 := getTag_setTag _ _

@[simp] theorem clientId_withTag (msg : SmltMsg) (tag : Nat) :
    (msg.withTag tag).clientId = msg.clientId := getClientId_setTag _ _

@[simp] theorem requestId_withTag (msg : SmltMsg) (tag : Nat) :
    (msg.withTag tag).requestId = msg.requestId := getRequestId_setTag _ _

@[simp] theorem payload_withTag (msg : SmltMsg) (tag : Nat) :
    (msg.withTag tag).payload = msg.payload := rfl

@[simp] theorem command_withTag (msg : SmltMsg) (tag : Nat) :
    (msg.withTag tag).command = msg.command := by
  simp [command]

@[simp] theorem withTag_withTag (msg : SmltMsg) (a b : Nat) :
    (msg.withTag a).withTag b = msg.withTag b := by
  simp [withTag]

@[simp] theorem tag_stamp (buf : SmltMsg) (id rid recvFrom : Nat) (payload : Payload) :
    (buf.stamp id rid recvFrom payload).tag = REQ_TAG := by
  simp [tag, stamp]

@[simp] theorem command_stamp (buf : SmltMsg) (id rid recvFrom : Nat) (payload : Payload) :
    (buf.stamp id rid recvFrom payload).command = ⟨id % 2 ^ 16, rid % 2 ^ 32, payload⟩ := by
  simp [command, stamp, clientId, requestId, SmltMsg.payload]

theorem clientId_stamp (buf : SmltMsg) (id rid recvFrom : Nat) (payload : Payload) :
    (buf.stamp id rid recvFrom payload).clientId = id % 2 ^ 16 :=
  congrArg Command.clientId (command_stamp buf id rid recvFrom payload)

theorem requestId_stamp (buf : SmltMsg) (id rid recvFrom : Nat) (payload : Payload) :
    (buf.stamp id rid recvFrom payload).requestId = rid % 2 ^ 32 :=
  congrArg Command.requestId (command_stamp buf id rid recvFrom payload)

end SmltMsg

end SmeltConsensus.Message.Header
