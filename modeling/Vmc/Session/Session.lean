import Vmc.Transport.Protocol

/-!
# Vmc.Session.Session

The client's session: the lifecycle state machine of `session/state.c` and the
context of `session/session.c` that sends keepalives and watches for link loss.

Clock readings are arguments.  The callbacks of the state machine only log and
are left out; a call that sends returns the datagrams it hands to the transport.
-/

namespace Vmc

/-! ## lifecycle -/

/-- `vmc_session_state`. -/
inductive SessionState where
  | offline
  | discover
  | connecting
  | active
  | degraded
  | reconnecting
  | terminating
deriving DecidableEq, Repr

/-- `vmc_session_event`. -/
inductive SessionEvent where
  | boot
  | mapperResp
  | transportUp
  | linkOk
  | linkDegraded
  | linkLost
  | userTerminate
  | securityTerm
  | timeout
deriving DecidableEq, Repr

/-- `vmc_session`. -/
structure VmcSession where
  state : SessionState
  retries : UInt32
deriving DecidableEq, Repr

def vmcSessionInit : VmcSession := ⟨.offline, 0⟩

/-- `vmc_session_dispatch`: the status and the session after the call. -/
def vmcSessionDispatch (s : VmcSession) (ev : SessionEvent) : Status × VmcSession :=
  match s.state, ev with
  | .offline, .boot => (.ok, { s with state := .discover })
  | .discover, .mapperResp => (.ok, { s with state := .connecting })
  | .discover, .timeout => (.ok, { s with retries := s.retries + 1 })
  | .discover, .linkLost => (.ok, { s with state := .offline })
  | .connecting, .transportUp => (.ok, { s with state := .active })
  | .connecting, .timeout => (.ok, { state := .discover, retries := s.retries + 1 })
  | .connecting, .linkLost => (.ok, { s with state := .offline })
  | .active, .linkDegraded => (.ok, { s with state := .degraded })
  | .active, .linkLost => (.ok, { s with state := .reconnecting })
  | .active, .userTerminate => (.ok, { s with state := .terminating })
  | .active, .securityTerm => (.ok, { s with state := .terminating })
  | .degraded, .linkOk => (.ok, { s with state := .active })
  | .degraded, .linkLost => (.ok, { s with state := .reconnecting })
  | .degraded, .userTerminate => (.ok, { s with state := .terminating })
  | .degraded, .securityTerm => (.ok, { s with state := .terminating })
  | .reconnecting, .transportUp => (.ok, { s with state := .active })
  | .reconnecting, .linkOk => (.ok, { s with state := .discover })
  | .reconnecting, .timeout => (.ok, { state := .offline, retries := s.retries + 1 })
  | .terminating, _ => (.ok, s)
  | _, _ => (.invalidState, s)

/-! ## context -/

/-- The fields of `vmc_session_config` that the session reads. -/
structure SessionConfig where
  keepaliveMs : UInt32
  linkTimeoutMs : UInt32
deriving DecidableEq, Repr

/-- `vmc_session_ctx`. -/
structure SessionCtx where
  sm : VmcSession
  cfg : SessionConfig
  lastRxMs : UInt64
  lastKeepaliveMs : UInt64
  lastKaSendUs : UInt64
  txSeq : UInt64
  keepaliveIntervalMs : UInt32
deriving DecidableEq, Repr

def vmcSessionCtxInit (cfg : SessionConfig) (nowMs : UInt64) : SessionCtx where
  sm := vmcSessionInit
  cfg := cfg
  lastRxMs := nowMs
  lastKeepaliveMs := nowMs
  lastKaSendUs := 0
  txSeq := 0
  keepaliveIntervalMs := if cfg.keepaliveMs ≠ 0 then cfg.keepaliveMs else 2000

/-- `vmc_session_dispatch(&sc->sm, ev)`. -/
def SessionCtx.dispatch (sc : SessionCtx) (ev : SessionEvent) : Status × SessionCtx :=
  let (st, sm) := vmcSessionDispatch sc.sm ev
  (st, { sc with sm := sm })

def vmcSessionStart (sc : SessionCtx) : Status × SessionCtx := sc.dispatch .boot

def vmcSessionStop (sc : SessionCtx) : Status × SessionCtx := sc.dispatch .userTerminate

/-- The header of a control datagram without payload, as keepalives and the
simulator's echoes have it. -/
def controlHeader (seq tsUs : UInt32) : ProtoHeader where
  magic := vmcProtoMagic
  version := vmcProtoVersion
  flags := 0
  stream := streamControl
  reserved := 0
  payloadLen := 0
  seq := seq
  tsUs := tsUs
  crc := 0

/-- `send_keepalive`: the context after the call and the datagrams sent.  The
packet buffer is on the stack and the encoder overwrites all of it. -/
def sendKeepalive (sc : SessionCtx) (nowMs nowUs : UInt64) : SessionCtx × List (List UInt8) :=
  let h := controlHeader sc.txSeq.toUInt32 nowMs.toUInt32
  let sc := { sc with txSeq := sc.txSeq + 1 }
  match vmcProtoEncode (List.replicate vmcProtoHeaderSize 0) h none with
  | (.error _, _) => (sc, [])
  | (.ok n, pkt) => ({ sc with lastKaSendUs := nowUs }, [pkt.take n])

/-- The keepalive part of `vmc_session_step`. -/
def stepKeepalive (sc : SessionCtx) (nowMs nowUs : UInt64) : SessionCtx × List (List UInt8) :=
  if nowMs - sc.lastKeepaliveMs ≥ sc.keepaliveIntervalMs.toUInt64 then
    let (sc, sent) := sendKeepalive sc nowMs nowUs
    ({ sc with lastKeepaliveMs := nowMs }, sent)
  else
    (sc, [])

/-- The link loss part of `vmc_session_step`. -/
def stepLink (sc : SessionCtx) (nowMs : UInt64) : Status × SessionCtx :=
  if sc.cfg.linkTimeoutMs > 0 ∧ nowMs - sc.lastRxMs > sc.cfg.linkTimeoutMs.toUInt64 then
    sc.dispatch .linkLost
  else
    (.ok, sc)

/-- `vmc_session_step` at `nowMs`, with `nowUs` the clock when a keepalive is
stamped: the status, the context and the datagrams sent. -/
def vmcSessionStep (sc : SessionCtx) (nowMs nowUs : UInt64) :
    Status × SessionCtx × List (List UInt8) :=
  match sc.sm.state with
  | .active | .degraded =>
      let (sc, sent) := stepKeepalive sc nowMs nowUs
      let (st, sc) := stepLink sc nowMs
      (st, sc, sent)
  | _ => (.ok, sc, [])

/-- `vmc_session_on_rx`; `nowMs` is the clock at the call. -/
def vmcSessionOnRx (sc : SessionCtx) (packet : List UInt8) (nowMs : UInt64) :
    Status × SessionCtx :=
  match vmcProtoDecodeHeader packet (readHeader []) with
  | (.ok, h) => (.ok, if h.stream = streamControl then { sc with lastRxMs := nowMs } else sc)
  | (st, _) => (st, sc)

/-! ## what a step sends -/

/-- The keepalive on the wire. -/
def keepalivePacket (sc : SessionCtx) (nowMs : UInt64) : List UInt8 :=
  datagram (controlHeader sc.txSeq.toUInt32 nowMs.toUInt32) []

/-- A control datagram is encoded into a buffer of the header's size. -/
theorem encode_control (seq tsUs : UInt32) :
    vmcProtoEncode (List.replicate vmcProtoHeaderSize 0) (controlHeader seq tsUs) none =
      (.ok 17, datagram (controlHeader seq tsUs) []) := by
  rw [encode_none _ rfl, encode_eq (by simp [vmcProtoHeaderValid, controlHeader]) rfl (by decide)]
  simp [vmcProtoHeaderSize]

theorem sendKeepalive_eq (sc : SessionCtx) (nowMs nowUs : UInt64) :
    sendKeepalive sc nowMs nowUs =
      ({ sc with txSeq := sc.txSeq + 1, lastKaSendUs := nowUs }, [keepalivePacket sc nowMs]) := by
  rw [sendKeepalive, encode_control, keepalivePacket]
  simp only
  rw [List.take_of_length_le (by simp)]

theorem stepLink_lastKaSendUs (sc : SessionCtx) (nowMs : UInt64) :
    (stepLink sc nowMs).2.lastKaSendUs = sc.lastKaSendUs := by
  unfold stepLink SessionCtx.dispatch
  split <;> rfl

/-- A step sends one keepalive and remembers its time, or it sends nothing and
remembers the one before. -/
theorem vmcSessionStep_cases (sc : SessionCtx) (nowMs nowUs : UInt64) :
    ((vmcSessionStep sc nowMs nowUs).2.2 = [] ∧
      (vmcSessionStep sc nowMs nowUs).2.1.lastKaSendUs = sc.lastKaSendUs) ∨
    ((vmcSessionStep sc nowMs nowUs).2.2 = [keepalivePacket sc nowMs] ∧
      (vmcSessionStep sc nowMs nowUs).2.1.lastKaSendUs = nowUs) := by
  have hkeep : ((stepKeepalive sc nowMs nowUs).2 = [] ∧
      (stepKeepalive sc nowMs nowUs).1.lastKaSendUs = sc.lastKaSendUs) ∨
      ((stepKeepalive sc nowMs nowUs).2 = [keepalivePacket sc nowMs] ∧
        (stepKeepalive sc nowMs nowUs).1.lastKaSendUs = nowUs) := by
    unfold stepKeepalive
    split
    · rw [sendKeepalive_eq]
      exact .inr ⟨rfl, rfl⟩
    · exact .inl ⟨rfl, rfl⟩
  unfold vmcSessionStep
  split
  · simpa only [stepLink_lastKaSendUs] using hkeep
  · simpa only [stepLink_lastKaSendUs] using hkeep
  · exact .inl ⟨rfl, rfl⟩

end Vmc
