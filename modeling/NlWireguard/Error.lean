import NlWireguard.Packet

/-!
# Errors without key material

`redactMessage` zeroes the keys of a message and drops the kernel's raw copies
of it. Every error of the crate is built by `WireguardError.new`, which redacts
the message it attaches; the type keeps that as a field.
-/

namespace NlWireguard

-- ---------------------------------------------------------------------------
-- Redaction
-- ---------------------------------------------------------------------------

def redactPeerAttribute : WireguardPeerAttribute → WireguardPeerAttribute
  | .presharedKey _ => .presharedKey .zero
  | attr => attr

def redactPeer (peer : WireguardPeer) : WireguardPeer :=
  ⟨peer.attributes.map redactPeerAttribute⟩

def redactAttribute : WireguardAttribute → WireguardAttribute
  | .privateKey _ => .privateKey .zero
  | .peers peers => .peers (peers.map redactPeer)
  | attr => attr

def redactAttributes (attributes : List WireguardAttribute) : List WireguardAttribute :=
  attributes.map redactAttribute

def redactPayload : NetlinkPayload → NetlinkPayload
  | .innerMessage genlMsg =>
    .innerMessage { genlMsg with
      payload := { genlMsg.payload with attributes := redactAttributes genlMsg.payload.attributes } }
  | .error errMsg => .error { errMsg with header := [] }
  | .overrun _ => .overrun []
  | payload => payload

def redactMessage (msg : NetlinkMessage) : NetlinkMessage :=
  { msg with payload := redactPayload msg.payload }

@[simp] theorem redactPeerAttribute_idem (a : WireguardPeerAttribute) :
    redactPeerAttribute (redactPeerAttribute a) = redactPeerAttribute a := by
  cases a <;> rfl

@[simp] theorem redactPeer_idem (peer : WireguardPeer) :
    redactPeer (redactPeer peer) = redactPeer peer := by
  simp [redactPeer]

@[simp] theorem redactAttribute_idem (a : WireguardAttribute) :
    redactAttribute (redactAttribute a) = redactAttribute a := by
  cases a <;> simp [redactAttribute]

@[simp] theorem redactMessage_idem (msg : NetlinkMessage) :
    redactMessage (redactMessage msg) = redactMessage msg := by
  obtain ⟨header, payload⟩ := msg
  cases payload <;> simp [redactMessage, redactPayload, redactAttributes]

-- ---------------------------------------------------------------------------
-- Errors
-- ---------------------------------------------------------------------------

inductive ErrorKind
  | bug
  | netlinkError
  | decodeError
  | invalidKey
  | invalidInput
  deriving DecidableEq, Repr

structure WireguardError where
  kind : ErrorKind
  msg : String
  netlinkMsg : Option NetlinkMessage
  redacted : netlinkMsg.map redactMessage = netlinkMsg
  deriving DecidableEq

@[ext] theorem WireguardError.ext {a b : WireguardError} (hk : a.kind = b.kind)
    (hm : a.msg = b.msg) (hn : a.netlinkMsg = b.netlinkMsg) : a = b := by
  cases a
  cases b
  simp_all

def WireguardError.new (kind : ErrorKind) (msg : String) (netlinkMsg : Option NetlinkMessage) :
    WireguardError where
  kind := kind
  msg := msg
  netlinkMsg := netlinkMsg.map redactMessage
  redacted := by cases netlinkMsg <;> simp

@[simp] theorem WireguardError.new_kind : (WireguardError.new k m n).kind = k := rfl

@[simp] theorem WireguardError.new_msg : (WireguardError.new k m n).msg = m := rfl

@[simp] theorem WireguardError.new_netlinkMsg :
    (WireguardError.new k m n).netlinkMsg = n.map redactMessage := rfl

end NlWireguard
