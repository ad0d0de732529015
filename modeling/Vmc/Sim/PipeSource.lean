import Vmc.Lib.Run
import Vmc.Sim.NalSplitter

/-!
# Vmc.Sim.PipeSource

The simulator's live source (`run_pipe_source` in `tools/vmc_sim/main.c`): an
encoder writes to a pipe and is restarted when the pipe ends.

The assembler outlives the encoder.  At the end of the pipe the unit under
assembly is sent and `have` cleared, but neither `au_len` nor `pend_len`: what
the buffers held goes in front of the next encoder's first access unit.

A run remembers what the pipe delivered, session by session, for every unit held
or sent where it stood there, and whether an end of the pipe has found something
in the assembler.  `pipe_restarts_apart` says that sessions stay apart until the
first access unit sent after that.
-/

namespace Vmc

open Run

/-! ## the source -/

/-- A NAL unit and where it stood: the encoder session and the offset of its
start code in what that session wrote. -/
structure SessionUnit where
  session : Nat
  off : Nat
  unit : NalUnit
deriving DecidableEq, Repr

/-- An access unit passed to `send_au`, and the units it was put together from. -/
structure SentAu where
  out : AuOut
  units : List SessionUnit

/-- The assembler, the units it holds, and whether one of its buffers was too
small for what was fed to it. -/
structure PipeAsm where
  st : AuAsm
  held : UnitAsm SessionUnit
  overrun : Bool

/-- `au_feed` of a unit found in session number `session`, which has written
`stream` so far. -/
def pipeFeed (session : Nat) (stream : List UInt8) (p : PipeAsm) (f : Found) :
    Option SentAu × PipeAsm :=
  let x : SessionUnit := ⟨session, stream.length - f.start.length, f.unit⟩
  let (out, st) := auFeed p.st f.unit
  let (units, held) := unitFeed SessionUnit.unit p.held x
  (out.map fun out => ⟨out, (units.map Prod.fst).getD []⟩,
    ⟨st, held, p.overrun || !decide (p.st.Room f.unit)⟩)

/-- `run_pipe_source` between two turns: the assembler and `inbuf`, the streams
of the sessions that have ended and of the current one, what was sent, and
whether a session has left something in the assembler. -/
structure PipeSource where
  asm : PipeAsm
  inbuf : List UInt8
  past : List (List UInt8)
  stream : List UInt8
  sent : List SentAu
  leftOver : Bool

/-- What `read` returns: bytes, `EAGAIN`, or the end of the pipe. -/
inductive PipeEvent where
  | read (bytes : List UInt8)
  | again
  | eof

namespace PipeSource

def init : PipeSource where
  asm := ⟨⟨[], simAuMax, [], simPendMax, false, false⟩, ⟨[], [], false, false⟩, false⟩
  inbuf := []
  past := []
  stream := []
  sent := []
  leftOver := false

/-- The assembler is as `au_asm_reset` leaves it. -/
def asmEmpty (s : PipeSource) : Bool :=
  !s.asm.st.hasVcl && s.asm.st.au.isEmpty && s.asm.st.pend.isEmpty

/-- The loop over `process_nalus`. -/
def drain (s : PipeSource) : PipeSource :=
  let r := drainUnits (pipeFeed s.past.length s.stream) (s.inbuf.length + 1) s.asm s.inbuf
  { s with asm := r.2.2, inbuf := r.2.1, sent := s.sent ++ r.1 }

/-- The branch for the end of the pipe. -/
def atEof (s : PipeSource) : PipeSource :=
  let leftOver := s.leftOver || !s.asmEmpty
  let s :=
    if s.asm.st.hasVcl then
      { s with
        sent := s.sent ++ [⟨⟨s.asm.st.au, s.asm.st.key⟩, s.asm.held.au⟩]
        asm := { s.asm with
          st := { s.asm.st with hasVcl := false }
          held := { s.asm.held with hasVcl := false } } }
    else
      s
  { s with inbuf := [], past := s.past ++ [s.stream], stream := [], leftOver := leftOver }

/-- One turn; `read` delivers at least a byte and at most what there is room
for. -/
def step (s : PipeSource) : PipeEvent → Option PipeSource
  | .read bytes =>
      if 0 < bytes.length ∧ s.inbuf.length + bytes.length ≤ simIbufCap then
        some { s with inbuf := s.inbuf ++ bytes, stream := s.stream ++ bytes }.drain
      else
        none
  | .again => some s.drain
  | .eof => some s.atEof.drain

/-- What each session wrote, the current one last. -/
def streams (s : PipeSource) : List (List UInt8) := s.past ++ [s.stream]

/-- Every unit sent. -/
def sentUnits (s : PipeSource) : List SessionUnit := s.sent.flatMap SentAu.units

/-- The unit stands in its session's stream where it says. -/
def Located (s : PipeSource) (u : SessionUnit) : Prop :=
  ∃ stream, s.streams[u.session]? = some stream ∧ u.unit.bytes <+: stream.drop u.off

/-- **Sessions stay apart**: as long as the buffers were large enough, every
access unit sent is made of units of one session, and no unit of any session has
been sent twice. -/
structure Apart (s : PipeSource) : Prop where
  bytes : ∀ a ∈ s.sent, a.out.bytes = unitBytes SessionUnit.unit a.units
  located : ∀ u ∈ s.sentUnits, s.Located u
  single : ∀ a ∈ s.sent, ∃ n, ∀ u ∈ a.units, u.session = n
  once : (s.sentUnits.map fun u => (u.session, u.off)).Nodup

/-- The turn passes an access unit to `send_au`. -/
def sends (s : PipeSource) (e : PipeEvent) : Bool :=
  (s.step e).any fun s' => s.sent.length < s'.sent.length

/-- Nothing is sent once an end of the pipe has found something in the
assembler. -/
def QuietOnceLeft (s : PipeSource) (e : PipeEvent) : Prop := s.leftOver = true → s.sends e = false

instance (s : PipeSource) (e : PipeEvent) : Decidable (s.QuietOnceLeft e) :=
  inferInstanceAs (Decidable (_ → _))

/-! ## the invariant -/

/-- Everything sent and held, in the order it came. -/
def seen (sent : List SentAu) (p : PipeAsm) : List SessionUnit :=
  sent.flatMap SentAu.units ++ p.held.all

/-- What holds between two units while `buf` is left of the current session's
stream: the units held are of this session, and all units seen stand, each at
its own place, before `buf`. -/
structure Inv (past : List (List UInt8)) (stream : List UInt8) (sent : List SentAu) (p : PipeAsm)
    (buf : List UInt8) : Prop where
  shows : Shows SessionUnit.unit p.st p.held
  tidy : p.held.Tidy
  bytes : ∀ a ∈ sent, a.out.bytes = unitBytes SessionUnit.unit a.units
  single : ∀ a ∈ sent, ∃ n, ∀ u ∈ a.units, u.session = n
  held : ∀ u ∈ p.held.all, u.session = past.length
  before : ∀ u ∈ seen sent p, u.session < past.length ∨
    (u.session = past.length ∧ u.off + buf.length < stream.length)
  once : ((seen sent p).map fun u => (u.session, u.off)).Nodup
  located : ∀ u ∈ seen sent p, ∃ str, (past ++ [stream])[u.session]? = some str ∧
    u.unit.bytes <+: str.drop u.off
  suffix : buf <:+ stream

variable {past : List (List UInt8)} {stream buf : List UInt8} {sent : List SentAu}
  {p p' : PipeAsm} {f : Found}

/-- The unit `f` as it is remembered. -/
def foundUnit (past : List (List UInt8)) (stream : List UInt8) (f : Found) : SessionUnit :=
  ⟨past.length, stream.length - f.start.length, f.unit⟩

/-- The next unit stands in the stream behind everything seen before. -/
theorem foundUnit_located (hsuf : buf <:+ stream) (hf : nextUnit buf = some f) :
    (foundUnit past stream f).off + f.start.length = stream.length ∧
      f.unit.bytes <+: stream.drop (foundUnit past stream f).off := by
  obtain ⟨-, hstart, hsuf', -⟩ := nextUnit_eq_some hf
  obtain ⟨front, hfront⟩ := hsuf'.trans hsuf
  have hoff : (foundUnit past stream f).off = front.length := by
    show stream.length - f.start.length = front.length
    rw [← hfront, List.length_append]
    omega
  refine ⟨by rw [hoff, ← hfront, List.length_append], ?_⟩
  rw [hoff, ← hfront, List.drop_left, hstart]
  exact List.prefix_append _ _

/-- A unit at a new place behind the others keeps what is known of them. -/
theorem seen_append {us : List SessionUnit} {x : SessionUnit}
    (hbefore : ∀ u ∈ us, u.session < past.length ∨
      (u.session = past.length ∧ u.off + buf.length < stream.length))
    (honce : (us.map fun u => (u.session, u.off)).Nodup) (hx : x.session = past.length)
    (hoff : stream.length ≤ x.off + buf.length) :
    ((us ++ [x]).map fun u => (u.session, u.off)).Nodup := by
  rw [List.map_append, List.nodup_append]
  refine ⟨honce, by simp, ?_⟩
  intro a ha b hb hab
  obtain ⟨u, hu, rfl⟩ := List.mem_map.mp ha
  obtain rfl : b = (x.session, x.off) := by simpa using hb
  obtain ⟨hses, hoff'⟩ := Prod.mk.inj hab
  rcases hbefore u hu with h | ⟨-, h⟩ <;> omega

theorem Inv.before_of_le (h : Inv past stream sent p buf) {buf' : List UInt8}
    (hle : buf'.length ≤ buf.length) : ∀ u ∈ seen sent p, u.session < past.length ∨
      (u.session = past.length ∧ u.off + buf'.length < stream.length) := by
  intro u hu
  rcases h.before u hu with hlt | ⟨heq, hlt⟩
  · exact .inl hlt
  · exact .inr ⟨heq, by omega⟩

/-- The same units, though some of them may have been sent. -/
theorem Inv.same (h : Inv past stream sent p buf) {sent' : List SentAu} {buf' : List UInt8}
    (hseen : seen sent' p' = seen sent p) (hsuf : buf' <:+ buf)
    (hshows : Shows SessionUnit.unit p'.st p'.held) (htidy : p'.held.Tidy)
    (hheld : p'.held.all ⊆ p.held.all)
    (hbytes : ∀ a ∈ sent', a.out.bytes = unitBytes SessionUnit.unit a.units)
    (hsingle : ∀ a ∈ sent', ∃ n, ∀ u ∈ a.units, u.session = n) :
    Inv past stream sent' p' buf' where
  shows := hshows
  tidy := htidy
  bytes := hbytes
  single := hsingle
  held := fun u hu => h.held u (hheld hu)
  before := by
    rw [hseen]
    exact h.before_of_le hsuf.length_le
  once := by
    rw [hseen]
    exact h.once
  located := by
    rw [hseen]
    exact h.located
  suffix := hsuf.trans h.suffix

/-- The unit found is held with the others. -/
theorem Inv.take (h : Inv past stream sent p buf) (hf : nextUnit buf = some f)
    (hall : p'.held.all = p.held.all ++ [foundUnit past stream f])
    (hshows : Shows SessionUnit.unit p'.st p'.held) (htidy : p'.held.Tidy) :
    Inv past stream sent p' f.rest := by
  obtain ⟨hlt, hle⟩ := nextUnit_rest_lt hf
  obtain ⟨hat, hpre⟩ := @foundUnit_located past _ _ _ h.suffix hf
  have hseen : seen sent p' = seen sent p ++ [foundUnit past stream f] := by
    rw [seen, hall, seen, List.append_assoc]
  refine ⟨hshows, htidy, h.bytes, h.single, ?_, ?_, ?_, ?_,
    (nextUnit_rest_suffix hf).trans h.suffix⟩
  · rw [hall]
    intro u hu
    rcases List.mem_append.mp hu with hu | hu
    · exact h.held u hu
    · obtain rfl := List.mem_singleton.mp hu
      rfl
  · rw [hseen]
    intro u hu
    rcases List.mem_append.mp hu with hu | hu
    · exact h.before_of_le (by omega) u hu
    · obtain rfl := List.mem_singleton.mp hu
      exact .inr ⟨rfl, by omega⟩
  · rw [hseen]
    exact seen_append h.before h.once rfl (by omega)
  · rw [hseen]
    intro u hu
    rcases List.mem_append.mp hu with hu | hu
    · exact h.located u hu
    · obtain rfl := List.mem_singleton.mp hu
      exact ⟨stream, by simp [foundUnit], hpre⟩

theorem pipeFeed_eq (past : List (List UInt8)) (stream : List UInt8) (p : PipeAsm) (f : Found) :
    pipeFeed past.length stream p f =
      ((auFeed p.st (foundUnit past stream f).unit).1.map fun out =>
          ⟨out, ((unitFeed SessionUnit.unit p.held (foundUnit past stream f)).1.map
            Prod.fst).getD []⟩,
        ⟨(auFeed p.st (foundUnit past stream f).unit).2,
          (unitFeed SessionUnit.unit p.held (foundUnit past stream f)).2,
          p.overrun || !decide (p.st.Room f.unit)⟩) := rfl

/-- **One unit** is ignored or taken, or it ends the access unit under assembly
and stays in the buffer. -/
theorem inv_feed (h : Inv past stream sent p buf) (hf : nextUnit buf = some f)
    (hroom : p.st.Room f.unit) :
    ((pipeFeed past.length stream p f).1 = none ∧
        Inv past stream sent (pipeFeed past.length stream p f).2 f.rest) ∨
      ∃ a, (pipeFeed past.length stream p f).1 = some a ∧
        Inv past stream (sent ++ [a]) (pipeFeed past.length stream p f).2 f.start := by
  obtain ⟨-, -, hsuf, -⟩ := nextUnit_eq_some hf
  obtain ⟨hout, hshows⟩ := @auFeed_shows _ SessionUnit.unit _ _ (foundUnit past stream f)
    h.shows hroom
  obtain ⟨htidy, hcases⟩ := @unitFeed_cases _ SessionUnit.unit _ h.tidy (foundUnit past stream f)
  rw [pipeFeed_eq]
  rcases hcases with ⟨hnone, hall | hall⟩ | ⟨hsome, hall⟩
  · refine .inl ⟨by rw [hout, hnone]; rfl, ?_⟩
    exact h.same (by simp only [seen, hall]) (nextUnit_rest_suffix hf) hshows htidy
      (by rw [hall]; exact List.Subset.refl _) h.bytes h.single
  · exact .inl ⟨by rw [hout, hnone]; rfl, h.take hf hall hshows htidy⟩
  · refine .inr ⟨⟨⟨unitBytes SessionUnit.unit p.held.all, p.held.key⟩, p.held.all⟩,
      by rw [hout, hsome]; rfl, ?_⟩
    refine h.same ?_ hsuf hshows htidy (by simp [hall]) ?_ ?_
    · simp [seen, hall]
    · intro a ha
      rcases List.mem_append.mp ha with ha | ha
      · exact h.bytes a ha
      · obtain rfl := List.mem_singleton.mp ha
        rfl
    · intro a ha
      rcases List.mem_append.mp ha with ha | ha
      · exact h.single a ha
      · obtain rfl := List.mem_singleton.mp ha
        exact ⟨past.length, h.held⟩

/-- Having sent an access unit, the assembler takes the next unit whatever it is. -/
theorem fresh_pipeFeed {session : Nat} {a : SentAu}
    (h : pipeFeed session stream p f = (some a, p')) : Fresh (pipeFeed session stream) p' := by
  intro g
  obtain ⟨out, hout, -⟩ := Option.map_eq_some_iff.mp (congrArg Prod.fst h)
  have hst : p'.st.hasVcl = false := by
    have hp' : (auFeed p.st f.unit).2 = p'.st := congrArg (fun r => r.2.st) h
    rw [← hp', (auFeed_eq_some hout).2.2]
    rfl
  show Option.map _ (auFeed p'.st g.unit).1 = none
  rw [auFeed_of_not_hasVcl hst]
  rfl

/-- **The loop ends** because nothing complete is left in the buffer. -/
theorem drain_done (s : PipeSource) : nextUnit s.drain.inbuf = none :=
  drainUnits_done (fun _ _ _ _ h => fresh_pipeFeed h) (.inl (Nat.lt_succ_self _))

/-! ## one drain -/

/-- The invariant, as long as the buffers were large enough. -/
def Keeps (past : List (List UInt8)) (stream : List UInt8) (sent : List SentAu) (p : PipeAsm)
    (buf : List UInt8) : Prop := p.overrun = false → Inv past stream sent p buf

theorem pipeFeed_overrun (h : (pipeFeed past.length stream p f).2.overrun = false) :
    p.overrun = false ∧ p.st.Room f.unit := by
  rw [pipeFeed_eq] at h
  simpa using h

/-- **One drain**: everything complete in the buffer goes through the assembler. -/
theorem keeps_drain {s : PipeSource} (h : Keeps s.past s.stream s.sent s.asm s.inbuf) :
    Keeps s.drain.past s.drain.stream s.drain.sent s.drain.asm s.drain.inbuf := by
  refine drainUnits_invariant (fun os p buf => Keeps s.past s.stream os p buf) ?_ ?_ _ h
  · intro os p buf f p' hI hf hfeed hover
    have hp' : (pipeFeed s.past.length s.stream p f).2 = p' := congrArg Prod.snd hfeed
    obtain ⟨hover', hroom⟩ := pipeFeed_overrun (by rw [hp']; exact hover)
    rcases inv_feed (hI hover') hf hroom with ⟨-, hinv⟩ | ⟨a, hsome, -⟩
    · rwa [hp'] at hinv
    · rw [hfeed] at hsome
      cases hsome
  · intro os p buf f o p' hI hf hfeed hover
    have hp' : (pipeFeed s.past.length s.stream p f).2 = p' := congrArg Prod.snd hfeed
    obtain ⟨hover', hroom⟩ := pipeFeed_overrun (by rw [hp']; exact hover)
    rcases inv_feed (hI hover') hf hroom with ⟨hnone, -⟩ | ⟨a, hsome, hinv⟩
    · rw [hfeed] at hnone
      cases hnone
    · obtain rfl : o = a := Option.some.inj (by rw [← hsome, hfeed])
      rwa [hp'] at hinv

theorem keeps_init : Keeps init.past init.stream init.sent init.asm init.inbuf := by
  intro _
  refine ⟨⟨rfl, rfl, rfl, rfl⟩, fun _ => rfl, ?_, ?_, ?_, ?_, List.nodup_nil, ?_,
    List.suffix_refl []⟩ <;> intro a ha <;> cases ha

/-- More bytes move the end of the stream and of the buffer alike. -/
theorem Inv.read (h : Inv past stream sent p buf) (bytes : List UInt8) :
    Inv past (stream ++ bytes) sent p (buf ++ bytes) where
  shows := h.shows
  tidy := h.tidy
  bytes := h.bytes
  single := h.single
  held := h.held
  before := by
    intro u hu
    rw [List.length_append, List.length_append]
    rcases h.before u hu with hlt | ⟨heq, hlt⟩
    · exact .inl hlt
    · exact .inr ⟨heq, by omega⟩
  once := h.once
  located := by
    intro u hu
    obtain ⟨str, hstr, hpre⟩ := h.located u hu
    rcases h.before u hu with hlt | ⟨heq, hlt⟩
    · refine ⟨str, ?_, hpre⟩
      rw [List.getElem?_append_left hlt] at hstr ⊢
      exact hstr
    · obtain rfl : stream = str := by simpa [heq] using hstr
      refine ⟨stream ++ bytes, by simp [heq], hpre.trans ?_⟩
      rw [List.drop_append_of_le_length (by omega)]
      exact List.prefix_append _ _
  suffix := by
    obtain ⟨front, hfront⟩ := h.suffix
    exact ⟨front, by rw [← List.append_assoc, hfront]⟩

/-- Buffers without bytes hold no units. -/
theorem eq_nil_of_unitBytes {xs : List SessionUnit} (h : unitBytes SessionUnit.unit xs = []) :
    xs = [] := by
  cases xs with
  | nil => rfl
  | cons x xs =>
      have hlen := congrArg List.length h
      simp only [unitBytes, List.flatMap_cons, NalUnit.bytes, startCode, List.length_append] at hlen
      split at hlen <;> simp at hlen

/-- A new session starts with an empty assembler. -/
theorem Inv.eof (h : Inv past stream sent p buf) (hau : p.st.au = []) (hpend : p.st.pend = []) :
    Inv (past ++ [stream]) [] sent p [] := by
  have hall : p.held.all = [] := by
    have h1 := eq_nil_of_unitBytes (h.shows.au.symm.trans hau)
    have h2 := eq_nil_of_unitBytes (h.shows.pend.symm.trans hpend)
    rw [UnitAsm.all, h1, h2, List.append_nil]
  refine ⟨h.shows, h.tidy, h.bytes, h.single, by simp [hall], ?_, h.once, ?_, List.suffix_refl []⟩
  · intro u hu
    refine .inl ?_
    rw [List.length_append, List.length_singleton]
    rcases h.before u hu with hlt | ⟨heq, -⟩ <;> omega
  · intro u hu
    obtain ⟨str, hstr, hpre⟩ := h.located u hu
    exact ⟨str, by rw [List.getElem?_append_left (List.getElem?_eq_some_iff.mp hstr).1]; exact hstr,
      hpre⟩

theorem Inv.apart {s : PipeSource} (h : Inv s.past s.stream s.sent s.asm s.inbuf) : s.Apart where
  bytes := h.bytes
  located := fun u hu => h.located u (List.mem_append_left _ hu)
  single := h.single
  once := by
    have honce := h.once
    rw [seen, List.map_append] at honce
    exact (List.nodup_append.mp honce).1

/-- What a session leaves in the assembler has not been sent before the end of
the pipe. -/
theorem Inv.apart_atEof {s : PipeSource} (h : Inv s.past s.stream s.sent s.asm s.inbuf) :
    s.atEof.Apart := by
  have hlocated : ∀ u ∈ seen s.sent s.asm, s.atEof.Located u := by
    intro u hu
    obtain ⟨str, hstr, hpre⟩ := h.located u hu
    have hstreams : s.atEof.streams = (s.past ++ [s.stream]) ++ [[]] := by
      unfold atEof
      split <;> rfl
    refine ⟨str, ?_, hpre⟩
    rw [hstreams, List.getElem?_append_left (List.getElem?_eq_some_iff.mp hstr).1]
    exact hstr
  have hau : ∀ u ∈ s.asm.held.au, u ∈ s.asm.held.all := fun u hu => List.mem_append_left _ hu
  by_cases hvcl : s.asm.st.hasVcl = true
  · have hsent : s.atEof.sent = s.sent ++ [⟨⟨s.asm.st.au, s.asm.st.key⟩, s.asm.held.au⟩] := by
      simp [atEof, hvcl]
    have hunits : s.atEof.sentUnits = s.sent.flatMap SentAu.units ++ s.asm.held.au := by
      simp [sentUnits, hsent]
    refine ⟨?_, ?_, ?_, ?_⟩
    · simpa [hsent, or_imp, forall_and, h.shows.au] using h.bytes
    · rw [hunits]
      intro u hu
      refine hlocated u ?_
      simp only [seen, UnitAsm.all, List.mem_append] at hu ⊢
      tauto
    · rw [hsent]
      intro a ha
      obtain ha | ha := List.mem_append.mp ha
      · exact h.single a ha
      · obtain rfl := List.mem_singleton.mp ha
        exact ⟨s.past.length, fun u hu => h.held u (hau u hu)⟩
    · have honce := h.once
      rw [hunits]
      refine honce.sublist (List.Sublist.map _ ?_)
      rw [seen, UnitAsm.all]
      exact List.Sublist.append_left (List.sublist_append_left _ _) _
  · have hsent : s.atEof.sent = s.sent := by simp [atEof, hvcl]
    refine ⟨by rw [hsent]; exact h.bytes, ?_, by rw [hsent]; exact h.single, ?_⟩
    · intro u hu
      rw [sentUnits, hsent] at hu
      exact hlocated u (List.mem_append_left _ hu)
    · rw [sentUnits, hsent]
      exact h.apart.once

/-- A turn that sends nothing keeps what was sent apart: the streams only grow. -/
theorem Apart.of_sent_eq {s s' : PipeSource} (h : s.Apart) (hsent : s'.sent = s.sent)
    (hgrow : ∀ (n : Nat) (str : List UInt8), s.streams[n]? = some str →
      ∃ str', s'.streams[n]? = some str' ∧ str <+: str') : s'.Apart where
  bytes := by
    rw [hsent]
    exact h.bytes
  located := by
    intro u hu
    rw [sentUnits, hsent] at hu
    obtain ⟨str, hstr, hpre⟩ := h.located u hu
    obtain ⟨str', hstr', rest, rfl⟩ := hgrow _ _ hstr
    refine ⟨_, hstr', hpre.trans ?_⟩
    rw [List.drop_append]
    exact List.prefix_append _ _
  single := by
    rw [hsent]
    exact h.single
  once := by
    rw [sentUnits, hsent]
    exact h.once

/-! ## what a turn does -/

/-- A buffer that was too small stays remembered. -/
theorem overrun_drain {s : PipeSource} (h : s.drain.asm.overrun = false) :
    s.asm.overrun = false := by
  refine @drainUnits_invariant PipeAsm SentAu (pipeFeed s.past.length s.stream) s.asm s.inbuf
    (fun _ p _ => p.overrun = false → s.asm.overrun = false) ?_ ?_ [] _ id h
  · intro _ p _ f p' hI _ hfeed hover
    have hp' : (pipeFeed s.past.length s.stream p f).2 = p' := congrArg Prod.snd hfeed
    exact hI (pipeFeed_overrun (by rw [hp']; exact hover)).1
  · intro _ p _ f _ p' hI _ hfeed hover
    have hp' : (pipeFeed s.past.length s.stream p f).2 = p' := congrArg Prod.snd hfeed
    exact hI (pipeFeed_overrun (by rw [hp']; exact hover)).1

/-- More of a stream, or one more stream. -/
theorem getElem?_streams_read {bytes : List UInt8} {n : Nat} {str : List UInt8}
    (h : (past ++ [stream])[n]? = some str) :
    ∃ str', (past ++ [stream ++ bytes])[n]? = some str' ∧ str <+: str' := by
  rw [List.getElem?_append] at h ⊢
  split at h
  · next hlt => exact ⟨str, by rw [if_pos hlt]; exact h, List.prefix_refl _⟩
  · next hge =>
    obtain ⟨hn, rfl⟩ := List.getElem?_eq_some_iff.mp h
    obtain hn0 : n - past.length = 0 := by simpa using hn
    exact ⟨stream ++ bytes, by simp [hge, hn0], by simp [hn0]⟩

/-- What every turn keeps. -/
structure Follows (s s' : PipeSource) : Prop where
  streams : ∀ (n : Nat) (str : List UInt8), s.streams[n]? = some str →
    ∃ str', s'.streams[n]? = some str' ∧ str <+: str'
  leftOver : s.leftOver = true → s'.leftOver = true
  sent : s.sent <+: s'.sent
  overrun : s'.asm.overrun = false → s.asm.overrun = false

theorem follows_drain (s : PipeSource) : s.Follows s.drain :=
  ⟨fun _ str h => ⟨str, h, List.prefix_refl _⟩, id, List.prefix_append _ _, overrun_drain⟩

theorem Follows.trans {s t u : PipeSource} (h : s.Follows t) (h' : t.Follows u) : s.Follows u where
  streams := by
    intro n str hstr
    obtain ⟨str', hstr', hpre⟩ := h.streams n str hstr
    obtain ⟨str'', hstr'', hpre'⟩ := h'.streams n str' hstr'
    exact ⟨str'', hstr'', hpre.trans hpre'⟩
  leftOver := fun hl => h'.leftOver (h.leftOver hl)
  sent := h.sent.trans h'.sent
  overrun := fun hover => h.overrun (h'.overrun hover)

theorem follows_atEof (s : PipeSource) : s.Follows s.atEof where
  streams := by
    intro n str hstr
    have hstreams : s.atEof.streams = s.streams ++ [[]] := by
      unfold atEof
      split <;> rfl
    refine ⟨str, ?_, List.prefix_refl _⟩
    rw [hstreams, List.getElem?_append_left (List.getElem?_eq_some_iff.mp hstr).1]
    exact hstr
  leftOver := by
    intro hleft
    unfold atEof
    split <;> simp [hleft]
  sent := by
    unfold atEof
    split
    · exact List.prefix_append _ _
    · exact List.prefix_refl _
  overrun := by
    unfold atEof
    split <;> exact id

theorem follows_step {s s' : PipeSource} {e : PipeEvent} (h : s.step e = some s') :
    s.Follows s' := by
  cases e with
  | read bytes =>
      simp only [step] at h
      split at h
      · obtain rfl := Option.some.inj h
        have hread : s.Follows { s with inbuf := s.inbuf ++ bytes, stream := s.stream ++ bytes } :=
          ⟨fun _ _ hstr => getElem?_streams_read hstr, id, List.prefix_refl _, id⟩
        exact hread.trans (follows_drain _)
      · cases h
  | again =>
      obtain rfl := Option.some.inj h
      exact follows_drain s
  | eof =>
      obtain rfl := Option.some.inj h
      exact (follows_atEof s).trans (follows_drain _)

/-! ## whole runs -/

/-- As long as the buffers were large enough: until a session leaves something in
the assembler the invariant holds, and from then on what was sent is apart. -/
def Holds (s : PipeSource) : Prop :=
  s.asm.overrun = false →
    (s.leftOver = false ∧ Inv s.past s.stream s.sent s.asm s.inbuf) ∨
      (s.leftOver = true ∧ s.Apart)

/-- The end of the pipe, when no session has left anything so far. -/
theorem holds_eof {s : PipeSource} (hleft : s.leftOver = false)
    (h : Inv s.past s.stream s.sent s.asm s.inbuf) : s.atEof.drain.Holds := by
  intro hover
  by_cases hempty : s.asmEmpty = true
  · obtain ⟨⟨hno, hau⟩, hpend⟩ : (s.asm.st.hasVcl = false ∧ s.asm.st.au = []) ∧
        s.asm.st.pend = [] := by
      simpa [asmEmpty] using hempty
    have hat : s.atEof = { s with inbuf := [], past := s.past ++ [s.stream], stream := [] } := by
      simp [atEof, hno, hempty]
    rw [hat] at hover ⊢
    exact .inl ⟨hleft, keeps_drain (fun _ => h.eof hau hpend) hover⟩
  · have hleft' : s.atEof.leftOver = true := by
      unfold atEof
      split <;> simp [hempty]
    have hnil : s.atEof.inbuf = [] := by
      unfold atEof
      split <;> rfl
    -- nothing of the next session has been read, so the drain finds nothing
    have hsent : s.atEof.drain.sent = s.atEof.sent := by
      simp [drain, hnil, drainUnits, processUnits, processLoop]
    exact .inr ⟨hleft', h.apart_atEof.of_sent_eq hsent (follows_drain _).streams⟩

theorem holds_step {s s' : PipeSource} {e : PipeEvent} (h : s.Holds) (hquiet : s.QuietOnceLeft e)
    (hstep : s.step e = some s') : s'.Holds := by
  have hfollows := follows_step hstep
  intro hover
  obtain ⟨hleft, hinv⟩ | ⟨hleft, hapart⟩ := h (hfollows.overrun hover)
  · cases e with
    | read bytes =>
        simp only [step] at hstep
        split at hstep
        · obtain rfl := Option.some.inj hstep
          exact .inl ⟨hleft, keeps_drain (fun _ => hinv.read bytes) hover⟩
        · cases hstep
    | again =>
        obtain rfl := Option.some.inj hstep
        exact .inl ⟨hleft, keeps_drain (fun _ => hinv) hover⟩
    | eof =>
        obtain rfl := Option.some.inj hstep
        exact holds_eof hleft hinv hover
  · have hsame : s'.sent = s.sent := by
      have hnot := hquiet hleft
      simp only [sends, hstep, Option.any_some, decide_eq_false_iff_not, not_lt] at hnot
      exact (hfollows.sent.eq_of_length_le hnot).symm
    exact .inr ⟨hfollows.leftOver hleft, hapart.of_sent_eq hsame hfollows.streams⟩

end PipeSource

/-- **Encoder restarts keep access units apart** in every run in which nothing is
sent once a session has left something in the assembler: as long as no buffer
was too small, every access unit sent so far is made of units of one session,
and no unit has been sent twice. -/
theorem pipe_restarts_apart {es : List PipeEvent}
    (hquiet : Along PipeSource.step PipeSource.QuietOnceLeft PipeSource.init es) :
    Always PipeSource.step (fun s => s.asm.overrun = false → s.Apart) PipeSource.init es := by
  intro pre s hpre hrun hover
  obtain ⟨post, rfl⟩ := hpre
  have hinit : PipeSource.init.Holds := fun hover => .inl ⟨rfl, PipeSource.keeps_init hover⟩
  have hholds := exec_invariant PipeSource.Holds
    (fun s e s' hs hok hstep => PipeSource.holds_step hs hok hstep)
    hinit (along_append.mp hquiet).1 hrun
  obtain ⟨-, hinv⟩ | ⟨-, hapart⟩ := hholds hover
  · exact hinv.apart
  · exact hapart

/-- The sessions of the units of each access unit sent by a run that fits. -/
def sentSessions (es : List PipeEvent) : Option (List (List Nat)) :=
  (exec PipeSource.step PipeSource.init es).bind fun s =>
    if s.asm.overrun then none else some (s.sent.map fun a => a.units.map SessionUnit.session)

/-- A session that ends before any unit of it is complete, and one of three
slices whose end finds the third in the assembler; a parameter set follows. -/
def quietRestarts : List PipeEvent :=
  [.read [0, 0, 1, 0x65, 0xaa], .eof,
    .read [0, 0, 0, 1, 0x65, 0xbb, 0, 0, 1, 0x68, 0xcc, 0],
    .read [0, 1, 0x41, 0xdd, 0, 0, 1, 0x41, 0xee, 0, 0, 1], .eof,
    .read [0, 0, 1, 0x68, 0xff, 0, 0, 1]]

theorem pipe_restarts_apart_quietRestarts :
    sentSessions quietRestarts = some [[1, 1], [1], [1]] ∧
      Always PipeSource.step (fun s => s.asm.overrun = false → s.Apart) PipeSource.init
        quietRestarts :=
  ⟨by decide +kernel, pipe_restarts_apart (by decide +kernel)⟩

/-- Every restart keeps access units apart. -/
def RestartsApart : Prop :=
  ∀ es, Always PipeSource.step (fun s => s.asm.overrun = false → s.Apart) PipeSource.init es

/-- A session of one slice that ends, and two slices of the next. -/
def twoSessions : List PipeEvent :=
  [.read [0, 0, 1, 0x65, 0xaa, 0, 0, 1], .eof,
    .read [0, 0, 1, 0x65, 0xbb, 0, 0, 1, 0x41, 0xcc, 0, 0, 1]]

/-- The slice sent at the end of the first session is sent again in front of the
second session's first. -/
theorem restartsApart_fails : ¬ RestartsApart := by
  intro h
  have hmix : sentSessions twoSessions = some [[0], [0, 1]] := by decide +kernel
  obtain ⟨s, hrun, hs⟩ := Option.bind_eq_some_iff.mp hmix
  split at hs
  · cases hs
  next hover =>
    have hapart := h twoSessions twoSessions s (List.prefix_refl _) hrun (by simpa using hover)
    have hmem : [0, 1] ∈ s.sent.map fun a => a.units.map SessionUnit.session := by
      rw [Option.some.inj hs]
      decide
    obtain ⟨a, ha, hunits⟩ := List.mem_map.mp hmem
    obtain ⟨n, hn⟩ := hapart.single a ha
    have hall : ∀ k ∈ a.units.map SessionUnit.session, k = n := by
      intro k hk
      obtain ⟨u, hu, rfl⟩ := List.mem_map.mp hk
      exact hn u hu
    rw [hunits] at hall
    have h0 := hall 0 (by decide)
    have h1 := hall 1 (by decide)
    omega

end Vmc
