import Vmc.Session.Session
import Vmc.Lib.Run

/-!
# Vmc.Client.RttSamples

Round-trip samples: the client's session sends keepalives, the simulator
answers each with an echo, and `latency_update_rtt` takes the time since the
last keepalive as the round trip of whatever echo comes in.

The network may lose, delay, reorder and duplicate: every datagram ever sent
stays on it, and may be handed over at any time, any number of times or never.
Each datagram carries the number of the keepalive it is or answers, which no
code reads.  `rtt_samples_iff` says when the samples are those of the keepalives
answered.
-/

namespace Vmc

/-! ## estimates -/

/-- The globals `g_rtt_us`, `g_one_way_us`, `g_offset_us` and `g_have_offset`. -/
structure Latency where
  rttUs : UInt32
  oneWayUs : UInt32
  offsetUs : UInt32
  haveOffset : Bool
deriving DecidableEq, Repr

/-- What `latency_update_rtt` computes from a keepalive sent at `c1` when an echo
stamped `simEchoTs` comes in at `c2`; `none` where it returns early. -/
def rttSample (c1 c2 : UInt64) (simEchoTs : UInt32) : Option Latency :=
  if c1 = 0 then
    none
  else
    let rtt := c2 - c1
    if rtt ≥ 1000000 then
      none
    else
      let oneWay := (rtt / 2).toUInt32
      some ⟨rtt.toUInt32, oneWay, (c1.toUInt32 + oneWay) - simEchoTs, true⟩

/-- `latency_update_rtt`; `c2` is the clock at the call. -/
def latencyUpdateRtt (g : Latency) (sc : SessionCtx) (simEchoTs : UInt32) (c2 : UInt64) :
    Latency :=
  (rttSample sc.lastKaSendUs c2 simEchoTs).getD g

/-- The checks of `latency_update_rtt`. -/
def RttAccepts (c1 c2 : UInt64) : Prop := c1 ≠ 0 ∧ c2 - c1 < 1000000

instance (c1 c2 : UInt64) : Decidable (RttAccepts c1 c2) := inferInstanceAs (Decidable (_ ∧ _))

theorem rttSample_isSome_iff (c1 c2 : UInt64) (ts : UInt32) :
    (rttSample c1 c2 ts).isSome ↔ RttAccepts c1 c2 := by
  unfold rttSample RttAccepts
  by_cases h0 : c1 = 0
  · simp [h0]
  · by_cases hlt : c2 - c1 < 1000000
    · simp [h0, hlt]
    · simp [h0, hlt, UInt64.not_lt.mp hlt]

/-- Two send times that give the same sample are the same. -/
theorem rttSample_inj {a b c2 : UInt64} {ts : UInt32} {l : Latency}
    (ha : rttSample a c2 ts = some l) (hb : rttSample b c2 ts = some l) : a = b := by
  have hrtt : ∀ {c : UInt64}, rttSample c c2 ts = some l →
      c2 - c < 1000000 ∧ l.rttUs = (c2 - c).toUInt32 := by
    intro c h
    have hacc := (rttSample_isSome_iff c c2 ts).mp (by simp [h])
    simp only [rttSample, hacc.1, if_false, ge_iff_le, UInt64.not_le.mpr hacc.2,
      Option.some.injEq] at h
    exact ⟨hacc.2, by rw [← h]⟩
  obtain ⟨ha, hal⟩ := hrtt ha
  obtain ⟨hb, hbl⟩ := hrtt hb
  -- both round trips are below 2^32, so equal as 32-bit values they are equal
  have heq : (c2 - a).toUInt32.toNat = (c2 - b).toUInt32.toNat := by rw [← hal, hbl]
  rw [UInt64.lt_iff_toNat_lt] at ha hb
  rw [UInt64.toNat_toUInt32, UInt64.toNat_toUInt32] at heq
  have hsub : c2 - a = c2 - b := by
    apply UInt64.toNat_inj.mp
    change (c2 - a).toNat < 1000000 at ha
    change (c2 - b).toNat < 1000000 at hb
    omega
  exact (UInt64.sub_right_inj c2).mp hsub

/-! ## the system -/

/-- A datagram, with the number of the keepalive it is or answers. -/
structure Tagged where
  pkt : List UInt8
  ka : Nat
deriving DecidableEq, Repr

/-- An echo that gave a sample: the keepalive it answers, when it came in and its
time stamp. -/
structure Accepted where
  ka : Nat
  arrivedUs : UInt64
  echoTs : UInt32
deriving DecidableEq, Repr

/-- The client's session and estimates, the send times of its keepalives, what
has been sent in either direction, and the last echo that gave a sample. -/
structure RttSys where
  session : SessionCtx
  latency : Latency
  sends : List UInt64
  toSim : List Tagged
  toClient : List Tagged
  accepted : Option Accepted
deriving DecidableEq, Repr

/-- One step of a party: `vmc_session_step` in the client's main loop, with the
clock at both its readings and whether the transport sends; the simulator
draining a datagram at its own clock; the client receiving one. -/
inductive RttEvent where
  | sessionStep (nowMs nowUs : UInt64) (sendOk : Bool)
  | drain (i : Nat) (simUs : UInt32)
  | receive (i : Nat) (nowUs nowMs : UInt64)
deriving DecidableEq, Repr

/-- The control branch of the simulator's `drain_media`: the datagrams it sends
back. -/
def drainMediaControl (rbuf : List UInt8) (nowUs : UInt32) : List (List UInt8) :=
  match vmcProtoDecode rbuf ⟨readHeader [], []⟩ with
  | (.ok, d) =>
      if d.h.stream = streamControl then
        match vmcProtoEncode (List.replicate vmcProtoHeaderSize 0)
            (controlHeader (d.h.seq + 1) nowUs) none with
        | (.ok n, epkt) => if 0 < n then [epkt.take n] else []
        | (.error _, _) => []
      else []
  | _ => []

namespace RttSys

/-- The client as it enters its main loop: the session is set up at `nowMs` and
taken to ACTIVE. -/
def init (cfg : SessionConfig) (nowMs : UInt64) : RttSys where
  session :=
    let sc := (vmcSessionStart (vmcSessionCtxInit cfg nowMs)).2
    let sc := (sc.dispatch .mapperResp).2
    (sc.dispatch .transportUp).2
  latency := ⟨0, 0, 0, false⟩
  sends := []
  toSim := []
  toClient := []
  accepted := none

/-- `vmc_session_step`; a keepalive the transport does not take has been stamped
all the same. -/
def sessionStep (s : RttSys) (nowMs nowUs : UInt64) (sendOk : Bool) : RttSys :=
  let (_, session, pkts) := vmcSessionStep s.session nowMs nowUs
  { s with
    session := session
    sends := s.sends ++ pkts.map fun _ => nowUs
    toSim := s.toSim ++ if sendOk then pkts.map fun pkt => ⟨pkt, s.sends.length⟩ else [] }

/-- The call of `latency_update_rtt` for the echo of keepalive `ka`. -/
def updateRtt (s : RttSys) (ka : Nat) (simEchoTs : UInt32) (nowUs : UInt64) : RttSys :=
  { s with
    latency := latencyUpdateRtt s.latency s.session simEchoTs nowUs
    accepted :=
      if (rttSample s.session.lastKaSendUs nowUs simEchoTs).isSome then
        some ⟨ka, nowUs, simEchoTs⟩
      else
        s.accepted }

/-- The body of the receive loop for a datagram of this system. -/
def onDatagram (s : RttSys) (m : Tagged) (nowUs nowMs : UInt64) : RttSys :=
  match vmcProtoDecode m.pkt ⟨readHeader [], []⟩ with
  | (.ok, d) =>
      let s := if d.h.stream = streamControl then s.updateRtt m.ka d.h.tsUs nowUs else s
      { s with session := (vmcSessionOnRx s.session m.pkt nowMs).2 }
  | _ => s

def step (s : RttSys) : RttEvent → Option RttSys
  | .sessionStep nowMs nowUs sendOk => some (s.sessionStep nowMs nowUs sendOk)
  | .drain i simUs => (s.toSim[i]?).map fun m =>
      { s with
        toClient := s.toClient ++ (drainMediaControl m.pkt simUs).map fun pkt => ⟨pkt, m.ka⟩ }
  | .receive i nowUs nowMs => (s.toClient[i]?).map fun m => s.onDatagram m nowUs nowMs

/-- The estimates are those of the keepalive that the last accepted echo
answers. -/
def SamplesMatch (s : RttSys) : Prop :=
  ∀ a ∈ s.accepted, ∃ c1 ∈ s.sends[a.ka]?, rttSample c1 a.arrivedUs a.echoTs = some s.latency

instance (s : RttSys) : Decidable s.SamplesMatch :=
  inferInstanceAs (Decidable (∀ a ∈ s.accepted, ∃ c1 ∈ s.sends[a.ka]?,
    rttSample c1 a.arrivedUs a.echoTs = some s.latency))

/-- The send time of the newest keepalive, 0 before the first. -/
def newestUs (s : RttSys) : UInt64 := s.sends.getLast?.getD 0

/-- An echo that comes in within a second of the newest keepalive answers that
keepalive, or one sent in the same microsecond. -/
def AnswersNewest (s : RttSys) : RttEvent → Prop
  | .receive i nowUs _ => ∀ m ∈ s.toClient[i]?, RttAccepts s.newestUs nowUs →
      s.sends[m.ka]? = s.sends.getLast?
  | _ => True

instance (s : RttSys) : (e : RttEvent) → Decidable (s.AnswersNewest e)
  | .sessionStep _ _ _ => .isTrue trivial
  | .drain _ _ => .isTrue trivial
  | .receive i nowUs _ => inferInstanceAs (Decidable (∀ m ∈ s.toClient[i]?,
      RttAccepts s.newestUs nowUs → s.sends[m.ka]? = s.sends.getLast?))

/-! ## control datagrams -/

/-- A control datagram is read back with its time stamp. -/
theorem decode_control (seq ts : UInt32) (out : DecodeOut) :
    ∃ d, vmcProtoDecode (datagram (controlHeader seq ts) []) out = (.ok, d) ∧
      d.h.stream = streamControl ∧ d.h.tsUs = ts := by
  have hv : vmcProtoHeaderValid (controlHeader seq ts) := by
    simp [vmcProtoHeaderValid, controlHeader]
  have hwf : WellFormed (datagram (controlHeader seq ts) [] ++ []) :=
    wellFormed_datagram_append hv rfl []
  have hread := readHeader_datagram_append (controlHeader seq ts) [] []
  rw [List.append_nil] at hwf hread
  refine ⟨_, decode_of_wellFormed hwf out, ?_⟩
  simp only [hread]
  exact ⟨rfl, rfl⟩

/-- The simulator answers with a control datagram stamped with its clock, or not
at all. -/
theorem drainMediaControl_cases (rbuf : List UInt8) (nowUs : UInt32) :
    drainMediaControl rbuf nowUs = [] ∨
      ∃ seq, drainMediaControl rbuf nowUs = [datagram (controlHeader seq nowUs) []] := by
  unfold drainMediaControl
  split
  · split
    · rw [encode_control]
      simp only [Nat.zero_lt_succ, if_true]
      rw [List.take_of_length_le (by simp)]
      exact .inr ⟨_, rfl⟩
    · exact .inl rfl
  · exact .inl rfl

theorem vmcSessionOnRx_lastKaSendUs (sc : SessionCtx) (pkt : List UInt8) (nowMs : UInt64) :
    (vmcSessionOnRx sc pkt nowMs).2.lastKaSendUs = sc.lastKaSendUs := by
  unfold vmcSessionOnRx
  split
  · dsimp only
    split <;> rfl
  · rfl

/-! ## invariant -/

/-- What every run keeps: the session remembers the newest keepalive's send
time, and all that comes back are control datagrams. -/
structure Sound (s : RttSys) : Prop where
  newest : s.session.lastKaSendUs = s.newestUs
  echoes : ∀ m ∈ s.toClient, ∃ seq ts, m.pkt = datagram (controlHeader seq ts) []

theorem sound_init (cfg : SessionConfig) (nowMs : UInt64) : (init cfg nowMs).Sound where
  newest := rfl
  echoes := by simp [init]

/-- What receiving an echo does, its stamp read from the datagram. -/
theorem onDatagram_eq {s : RttSys} {m : Tagged} {seq ts : UInt32} (nowUs nowMs : UInt64)
    (hm : m.pkt = datagram (controlHeader seq ts) []) :
    s.onDatagram m nowUs nowMs =
      { s.updateRtt m.ka ts nowUs with
        session := (vmcSessionOnRx s.session m.pkt nowMs).2 } := by
  obtain ⟨d, hd, hctl, hts⟩ := decode_control seq ts ⟨readHeader [], []⟩
  rw [onDatagram, hm, hd]
  simp only [hctl, hts, if_true]
  rfl

theorem sound_step {s s' : RttSys} {e : RttEvent} (h : s.Sound) (hs : s.step e = some s') :
    s'.Sound := by
  cases e with
  | sessionStep nowMs nowUs sendOk =>
      obtain rfl := Option.some.inj hs
      refine ⟨?_, h.echoes⟩
      obtain ⟨hp, hlast⟩ | ⟨hp, hlast⟩ := vmcSessionStep_cases s.session nowMs nowUs
      · simp [sessionStep, newestUs, hp, hlast, h.newest]
      · simp [sessionStep, newestUs, hp, hlast]
  | drain i simUs =>
      obtain ⟨m, -, rfl⟩ := Option.map_eq_some_iff.mp hs
      refine ⟨h.newest, fun m' hm' => ?_⟩
      obtain hm' | hm' := List.mem_append.mp hm'
      · exact h.echoes m' hm'
      · obtain hnil | ⟨seq, hone⟩ := drainMediaControl_cases m.pkt simUs
        · simp [hnil] at hm'
        · simp only [hone, List.map_cons, List.map_nil, List.mem_singleton] at hm'
          exact ⟨seq, simUs, by rw [hm']⟩
  | receive i nowUs nowMs =>
      obtain ⟨m, hm, rfl⟩ := Option.map_eq_some_iff.mp hs
      obtain ⟨seq, ts, hpkt⟩ := h.echoes m (List.mem_of_getElem? hm)
      rw [onDatagram_eq nowUs nowMs hpkt]
      exact ⟨(vmcSessionOnRx_lastKaSendUs ..).trans h.newest, h.echoes⟩

/-- The estimates and the echo they come from, after an echo of keepalive `ka`. -/
theorem updateRtt_cases {s : RttSys} (h : s.Sound) (ka : Nat) (ts : UInt32) (nowUs : UInt64) :
    (RttAccepts s.newestUs nowUs ∧
      rttSample s.newestUs nowUs ts = some (s.updateRtt ka ts nowUs).latency ∧
      (s.updateRtt ka ts nowUs).accepted = some ⟨ka, nowUs, ts⟩) ∨
    (¬ RttAccepts s.newestUs nowUs ∧ (s.updateRtt ka ts nowUs).latency = s.latency ∧
      (s.updateRtt ka ts nowUs).accepted = s.accepted) := by
  unfold updateRtt latencyUpdateRtt
  rw [h.newest, ← rttSample_isSome_iff s.newestUs nowUs ts]
  cases rttSample s.newestUs nowUs ts with
  | none => exact .inr ⟨by simp, rfl, rfl⟩
  | some l => exact .inl ⟨rfl, rfl, rfl⟩

/-- A sample is accepted only after a first keepalive. -/
theorem getLast?_sends {s : RttSys} {nowUs : UInt64} (h : RttAccepts s.newestUs nowUs) :
    s.sends.getLast? = some s.newestUs := by
  unfold newestUs at h ⊢
  cases hlast : s.sends.getLast? with
  | none => simp [hlast, RttAccepts] at h
  | some c1 => rfl

/-- Keepalives to come leave the send times of those before alone. -/
theorem samplesMatch_of_append {s s' : RttSys} {more : List UInt64} (h : s.SamplesMatch)
    (hacc : s'.accepted = s.accepted) (hlat : s'.latency = s.latency)
    (hsends : s'.sends = s.sends ++ more) : s'.SamplesMatch := by
  intro a ha
  rw [hacc] at ha
  obtain ⟨c1, hc1, hsample⟩ := h a ha
  refine ⟨c1, ?_, hlat ▸ hsample⟩
  rw [hsends, List.getElem?_append_left (List.getElem?_eq_some_iff.mp hc1).1]
  exact hc1

theorem samplesMatch_step {s s' : RttSys} {e : RttEvent} (h : s.Sound) (hmatch : s.SamplesMatch)
    (hok : s.AnswersNewest e) (hs : s.step e = some s') : s'.SamplesMatch := by
  cases e with
  | sessionStep nowMs nowUs sendOk =>
      obtain rfl := Option.some.inj hs
      exact samplesMatch_of_append hmatch rfl rfl rfl
  | drain i simUs =>
      obtain ⟨m, -, rfl⟩ := Option.map_eq_some_iff.mp hs
      exact samplesMatch_of_append hmatch rfl rfl (List.append_nil _).symm
  | receive i nowUs nowMs =>
      obtain ⟨m, hm, rfl⟩ := Option.map_eq_some_iff.mp hs
      obtain ⟨seq, ts, hpkt⟩ := h.echoes m (List.mem_of_getElem? hm)
      rw [onDatagram_eq nowUs nowMs hpkt]
      obtain ⟨hacc, hsample, haccepted⟩ | ⟨-, hlat, haccepted⟩ := updateRtt_cases h m.ka ts nowUs
      · intro a ha
        obtain rfl := Option.some.inj (haccepted.symm.trans ha)
        exact ⟨s.newestUs, (hok m hm hacc).trans (getLast?_sends hacc), hsample⟩
      · exact samplesMatch_of_append hmatch haccepted hlat (List.append_nil _).symm

/-- Where the estimates match after an echo that was accepted, it answered the
newest keepalive: another send time would have given another sample. -/
theorem answersNewest_of_samplesMatch {s s' : RttSys} {e : RttEvent} (h : s.Sound)
    (hs : s.step e = some s') (hmatch : s'.SamplesMatch) : s.AnswersNewest e := by
  cases e with
  | sessionStep nowMs nowUs sendOk => trivial
  | drain i simUs => trivial
  | receive i nowUs nowMs =>
      obtain ⟨m, hm, rfl⟩ := Option.map_eq_some_iff.mp hs
      obtain ⟨seq, ts, hpkt⟩ := h.echoes m (List.mem_of_getElem? hm)
      rw [onDatagram_eq nowUs nowMs hpkt] at hmatch
      intro m' hm' hacc
      obtain rfl := Option.some.inj (hm.symm.trans hm')
      obtain ⟨-, hsample, haccepted⟩ | ⟨hno, -, -⟩ := updateRtt_cases h m.ka ts nowUs
      · obtain ⟨c1, hc1, hsample'⟩ := hmatch _ haccepted
        rw [getLast?_sends hacc, ← rttSample_inj hsample' hsample]
        exact hc1
      · contradiction

/-- **When round-trip samples are right.**  In a run of client, simulator and
network, every sample that `latency_update_rtt` accepts is that of the keepalive
its echo answers, exactly if every echo that comes in within a second of the
newest keepalive answers that one. -/
theorem rtt_samples_iff {cfg : SessionConfig} {nowMs : UInt64} {es : List RttEvent} {s : RttSys}
    (hrun : Run.exec step (init cfg nowMs) es = some s) :
    Run.Always step SamplesMatch (init cfg nowMs) es ↔
      Run.Along step AnswersNewest (init cfg nowMs) es := by
  refine Run.always_iff_along (fun s => s.Sound ∧ s.SamplesMatch) (fun s h => h.2) ?_ ?_
    ⟨sound_init cfg nowMs, by simp [SamplesMatch, init]⟩ hrun
  · intro s e s' h hok hs
    exact ⟨sound_step h.1 hs, samplesMatch_step h.1 h.2 hok hs⟩
  · intro s e s' h hs hmatch
    exact answersNewest_of_samplesMatch h.1 hs hmatch

/-- The client's configuration. -/
def thinclientConfig : SessionConfig := ⟨1000, 4000⟩

/-- Two keepalives, each answered within 30 ms. -/
def promptEchoes : List RttEvent :=
  [.sessionStep 1500 1500000 true, .drain 0 70000, .receive 0 1520000 1520,
    .sessionStep 2500 2500000 true, .drain 1 80000, .receive 1 2530000 2530]

theorem rtt_samples_iff_prompt :
    Run.Always step SamplesMatch (init thinclientConfig 500) promptEchoes := by
  obtain ⟨s, hs⟩ := Option.isSome_iff_exists.mp
    (by decide +kernel : (Run.exec step (init thinclientConfig 500) promptEchoes).isSome)
  exact (rtt_samples_iff hs).mpr (by decide +kernel)

/-- The echo of the first keepalive comes in after the second was sent. -/
def lateEcho : List RttEvent :=
  [.sessionStep 1500 1500000 true, .drain 0 70000, .sessionStep 2500 2500000 true,
    .receive 0 2550000 2550]

/-- Every accepted sample is that of the keepalive its echo answers. -/
def SamplesAlwaysMatch : Prop :=
  ∀ cfg nowMs es s, Run.exec step (init cfg nowMs) es = some s → s.SamplesMatch

theorem samplesAlwaysMatch_fails : ¬ SamplesAlwaysMatch := by
  intro h
  obtain ⟨s, hs⟩ := Option.isSome_iff_exists.mp
    (by decide +kernel : (Run.exec step (init thinclientConfig 500) lateEcho).isSome)
  -- a round trip of 1.05 s is taken for one of 50 ms
  have hbad : ∀ t ∈ Run.exec step (init thinclientConfig 500) lateEcho, ¬ t.SamplesMatch := by
    decide +kernel
  exact hbad s hs (h thinclientConfig 500 lateEcho s hs)

end RttSys

end Vmc
