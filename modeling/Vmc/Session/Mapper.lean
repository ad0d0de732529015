import Vmc.Client.SegmentRequest

/-!
# Vmc.Session.Mapper

Discovery: the client asks the mapper for the route to its container
(`session/mapper.c`), and the simulators answer (`drain_mapper` of
`tools/vmc_sim/main.c`, `run_mapper` of `tools/mec_sim.py`).

Both ends agree on a text, `VMC1 ROUTE <host>:<port>`; `route_roundtrip` says
which routes survive it.  The call itself sends, waits for one datagram and
tries again; `mapper_call_run` says how it ends for any behaviour of the network,
and `discovery_run` what that means between the client and the mapper, whose
datagrams may be lost, delayed, reordered and delivered twice.
-/

namespace Vmc

open Bytes CInt

/-! ## the text of a route -/

/-- The part of `vmc_session_config` that discovery fills in. -/
structure MediaRoute where
  containerHost : List UInt8
  containerPort : UInt16
deriving DecidableEq, Repr

/-- `strtoul(p, NULL, 10)`: a minus sign negates modulo the word. -/
def strtoul10 (p : List UInt8) : Nat :=
  if (leadingInt p).natAbs < 2 ^ 64 then (leadingInt p % 2 ^ 64).toNat else 2 ^ 64 - 1

/-- `%u` of `sscanf`. -/
def scanUnsigned (s : List UInt8) : Option Nat :=
  if scanDigits s = [] then none else some (strtoul10 s % 2 ^ 32)

/-- `sscanf(route, "%127[^:]:%u", host, &port)`. -/
def scanRoute (s : List UInt8) : Option (List UInt8 × Nat) :=
  let host := (s.take 127).takeWhile (· ≠ 58)
  if host = [] then none
  else if (s.drop host.length).head? = some 58 then
    (scanUnsigned (s.drop (host.length + 1))).map fun port => (host, port)
  else none

/-- What the client takes out of a datagram; its buffer holds 255 bytes and a
NUL. -/
def parseReply (datagram : List UInt8) : Option MediaRoute :=
  (strstr (cstr (datagram.take 255)) (ascii "ROUTE ")).bind fun route =>
    (scanRoute (route.drop 6)).bind fun (host, port) =>
      if 0 < port ∧ port ≤ 65535 then some ⟨host, UInt16.ofNat port⟩ else none

/-- The response of the mappers. -/
def routeText (host : List UInt8) (port : UInt16) : List UInt8 :=
  ascii "VMC1 ROUTE " ++ (host ++ 58 :: Digits.print 10 port.toNat)

/-- What `drain_mapper` sends: the response as it fits 128 bytes with its NUL. -/
def mapperReply (bindHost : List UInt8) (mediaPort : UInt16) : List UInt8 :=
  (routeText bindHost mediaPort).take 127

/-! ### reading it back -/

/-- `sscanf` succeeds on a host, a colon and a number, and on nothing else. -/
theorem scanRoute_eq_some_iff {s host : List UInt8} {port : Nat} :
    scanRoute s = some (host, port) ↔
      host ≠ [] ∧ 58 ∉ host ∧ host.length ≤ 127 ∧
        ∃ t, s = host ++ 58 :: t ∧ scanUnsigned t = some port := by
  constructor
  · intro h
    unfold scanRoute at h
    generalize hhost : (s.take 127).takeWhile (· ≠ 58) = w at h
    have hpre : w <+: s := by
      rw [← hhost]
      exact (List.takeWhile_prefix _).trans (List.take_prefix 127 s)
    obtain ⟨rest, rfl⟩ := hpre
    simp only [List.drop_left, ← List.drop_drop] at h
    split at h
    · cases h
    · rename_i hne
      split at h
      · rename_i hcolon
        obtain ⟨t, rfl⟩ := List.head?_eq_some_iff.mp hcolon
        rw [List.drop_succ_cons, List.drop_zero] at h
        obtain ⟨p, hp, heq⟩ := Option.map_eq_some_iff.mp h
        obtain ⟨rfl, rfl⟩ := Prod.mk.inj heq
        refine ⟨hne, ?_, ?_, t, rfl, hp⟩
        · intro hmem
          rw [← hhost] at hmem
          simpa using List.mem_takeWhile_imp hmem
        · rw [← hhost]
          exact ((List.takeWhile_prefix _).length_le).trans (List.length_take_le 127 _)
      · cases h
  · rintro ⟨hne, hcolon, hlen, t, rfl, hport⟩
    have hhost : ((host ++ 58 :: t).take 127).takeWhile (· ≠ 58) = host := by
      rw [List.take_append, List.take_of_length_le hlen]
      refine takeWhile_append_of_stop (fun c hc => decide_eq_true ?_) ?_
      · rintro rfl
        exact hcolon hc
      · intro c hc
        have hfirst := List.mem_of_mem_head? hc
        cases hk : 127 - host.length with
        | zero => simp [hk] at hc
        | succ k =>
            rw [hk, List.take_succ_cons, List.head?_cons, Option.mem_some_iff] at hc
            subst hc
            rfl
    simp only [scanRoute, hhost, if_neg hne, List.drop_left, List.head?_cons, if_true]
    rw [← List.drop_drop, List.drop_left, List.drop_succ_cons, List.drop_zero, hport]
    rfl

/-- A run of digits, as `%u` reads it. -/
theorem scanUnsigned_digits {ds : List UInt8} (hdec : ∀ b ∈ ds, isDecimal b = true)
    (hlt : Digits.value 10 ds < 2 ^ 32) :
    scanUnsigned ds = if ds = [] then none else some (Digits.value 10 ds) := by
  by_cases hne : ds = []
  · subst hne
    rfl
  · have hint : leadingInt ds = (Digits.value 10 ds : Int) := by
      have h := @leadingInt_digits ds [] hne hdec (fun b hb => absurd hb (by simp))
      rwa [List.append_nil] at h
    have hdigits : scanDigits ds ≠ [] := by
      have h := @scanInt_digits ds [] hne hdec (fun b hb => absurd hb (by simp))
      rw [List.append_nil, scanInt] at h
      intro hnil
      rw [if_pos hnil] at h
      cases h
    have hword : strtoul10 ds = Digits.value 10 ds := by
      rw [strtoul10, hint, Int.natAbs_natCast, if_pos (by omega)]
      omega
    rw [scanUnsigned, if_neg hdigits, hword, if_neg hne, Nat.mod_eq_of_lt hlt]

/-- A port whose last digits are missing is another port. -/
theorem scanUnsigned_take_port {port : UInt16} (hport : port ≠ 0) (k : Nat) :
    scanUnsigned ((Digits.print 10 port.toNat).take k) = some port.toNat ↔
      (Digits.print 10 port.toNat).length ≤ k := by
  have hpos : 0 < port.toNat := Nat.pos_of_ne_zero fun h => hport (UInt16.toNat_inj.mp h)
  have hmax := port.toNat_lt
  have hdec : ∀ b ∈ (Digits.print 10 port.toNat).take k, isDecimal b = true :=
    fun b hb => isDecimal_of_mem_print (List.mem_of_mem_take hb)
  have hvalue := Digits.value_take_print (b := 10) (by omega) (by omega) port.toNat k
  have hle : Digits.value 10 ((Digits.print 10 port.toNat).take k) ≤ port.toNat := by
    rw [hvalue]
    exact Nat.div_le_self _ _
  rw [scanUnsigned_digits hdec (by omega)]
  constructor
  · intro h
    by_contra hshort
    have hcut : Digits.value 10 ((Digits.print 10 port.toNat).take k) < port.toNat := by
      rw [hvalue]
      exact Nat.div_lt_self hpos (Nat.one_lt_pow (by omega) (by omega))
    split at h
    · cases h
    · exact absurd (Option.some.inj h) hcut.ne
  · intro hfits
    rw [List.take_of_length_le hfits, if_neg (Digits.print_ne_nil 10 port.toNat),
      Digits.value_print (by omega) (by omega)]

/-- A route that is cut off behind `c` bytes is read back if it was not cut. -/
theorem scanRoute_take {host : List UInt8} {port : UInt16} (hport : port ≠ 0) (c : Nat) :
    scanRoute ((host ++ 58 :: Digits.print 10 port.toNat).take c) = some (host, port.toNat) ↔
      host ≠ [] ∧ 58 ∉ host ∧ host.length ≤ 127 ∧
        host.length + 1 + (Digits.print 10 port.toNat).length ≤ c := by
  rw [scanRoute_eq_some_iff]
  refine and_congr_right fun _ => and_congr_right fun _ => and_congr_right fun _ => ?_
  rw [List.take_append]
  by_cases hc : host.length < c
  · obtain ⟨k, rfl⟩ : ∃ k, c = host.length + (k + 1) := ⟨c - host.length - 1, by omega⟩
    rw [List.take_of_length_le (by omega), Nat.add_sub_cancel_left, List.take_succ_cons]
    constructor
    · rintro ⟨t, heq, ht⟩
      obtain rfl := (List.cons.inj (List.append_cancel_left heq)).2
      have := (scanUnsigned_take_port hport k).mp ht
      omega
    · intro hfits
      exact ⟨_, rfl, (scanUnsigned_take_port hport k).mpr (by omega)⟩
  · constructor
    · rintro ⟨t, heq, -⟩
      have hlen := congrArg List.length heq
      simp only [List.length_append, List.length_take, List.length_cons] at hlen
      omega
    · intro hfits
      omega

/-- What the client makes of a response of which `c` bytes arrive. -/
theorem parseReply_take {host : List UInt8} (hnul : 0 ∉ host) (port : UInt16) {c : Nat}
    (hc : 11 ≤ c) (hbuf : c ≤ 255) :
    parseReply ((routeText host port).take c) = some ⟨host, port⟩ ↔
      host ≠ [] ∧ 58 ∉ host ∧ port ≠ 0 ∧ host.length ≤ 127 ∧
        host.length + 1 + (Digits.print 10 port.toNat).length ≤ c - 11 := by
  have hcut : (routeText host port).take c =
      ascii "VMC1 ROUTE " ++ (host ++ 58 :: Digits.print 10 port.toNat).take (c - 11) := by
    have hlen : (ascii "VMC1 ROUTE ").length = 11 := rfl
    rw [routeText, List.take_append, List.take_of_length_le (by omega), hlen]
  have hzero : ∀ b ∈ ascii "VMC1 ROUTE " ++
      (host ++ 58 :: Digits.print 10 port.toNat).take (c - 11), b ≠ 0 := by
    have hfront : ∀ b ∈ ascii "VMC1 ROUTE ", b ≠ 0 := by decide +kernel
    intro b hb
    obtain hb | hb := List.mem_append.mp hb
    · exact hfront b hb
    · obtain hb | hb := List.mem_append.mp (List.mem_of_mem_take hb)
      · rintro rfl
        exact hnul hb
      · obtain rfl | hb := List.mem_cons.mp hb
        · decide
        · rintro rfl
          exact absurd (isDecimal_of_mem_print hb) (by decide)
  have htext : cstr (((routeText host port).take c).take 255) =
      ascii "VMC1 ROUTE " ++ (host ++ 58 :: Digits.print 10 port.toNat).take (c - 11) := by
    rw [List.take_take, min_eq_right hbuf, hcut, cstr, List.takeWhile_eq_self_iff]
    exact fun b hb => decide_eq_true (hzero b hb)
  have hfind : strstr (ascii "VMC1 ROUTE ") (ascii "ROUTE ") = some (ascii "ROUTE ") := by
    decide +kernel
  have hdrop : ∀ t, (ascii "ROUTE " ++ t).drop 6 = t := fun t => rfl
  rw [parseReply, htext, strstr_append hfind, Option.bind_some, hdrop]
  have hmax := port.toNat_lt
  have hinv : UInt16.ofNat port.toNat = port := UInt16.ofNat_toNat
  constructor
  · intro h
    obtain ⟨⟨w, p⟩, hscan, hp⟩ := Option.bind_eq_some_iff.mp h
    simp only at hp
    split at hp
    · rename_i hrange
      obtain ⟨rfl, rfl⟩ := MediaRoute.mk.inj (Option.some.inj hp)
      have hback : (UInt16.ofNat p).toNat = p := UInt16.toNat_ofNat_of_lt' (show p < 65536 by omega)
      have hne : UInt16.ofNat p ≠ 0 := by
        intro h0
        have := congrArg UInt16.toNat h0
        rw [hback] at this
        exact absurd this hrange.1.ne'
      have hscan' : scanRoute ((w ++ 58 :: Digits.print 10 (UInt16.ofNat p).toNat).take (c - 11)) =
          some (w, (UInt16.ofNat p).toNat) := by rwa [hback] at hscan ⊢
      obtain ⟨hhost, hcolon, hlen, hfits⟩ := (scanRoute_take hne (c - 11)).mp hscan'
      exact ⟨hhost, hcolon, hne, hlen, hfits⟩
    · cases hp
  · rintro ⟨hhost, hcolon, hne, hlen, hfits⟩
    have hpos : 0 < port.toNat := Nat.pos_of_ne_zero fun h => hne (UInt16.toNat_inj.mp h)
    rw [(scanRoute_take hne (c - 11)).mpr ⟨hhost, hcolon, hlen, hfits⟩, Option.bind_some]
    simp only
    rw [if_pos ⟨hpos, by omega⟩, hinv]

theorem length_print_port (port : UInt16) :
    0 < (Digits.print 10 port.toNat).length ∧ (Digits.print 10 port.toNat).length ≤ 5 := by
  have hmax := port.toNat_lt
  exact ⟨List.length_pos_iff.mpr (Digits.print_ne_nil 10 _),
    Digits.length_print_le (by omega) (by omega) (by omega)⟩

/-- The client reads the simulator's response if host and port fit. -/
theorem route_read {host : List UInt8} (hnul : 0 ∉ host) (port : UInt16) :
    parseReply (mapperReply host port) = some ⟨host, port⟩ ↔
      host ≠ [] ∧ 58 ∉ host ∧ port ≠ 0 ∧
        host.length + (Digits.print 10 port.toNat).length ≤ 115 := by
  obtain ⟨hpos, -⟩ := length_print_port port
  rw [mapperReply, parseReply_take hnul port (by omega) (by omega)]
  refine and_congr_right fun _ => and_congr_right fun _ => and_congr_right fun _ => ?_
  omega

/-- **Round trip of a route.**  The client reads the route of the simulator in C
if host and port fit what is left of its 127 bytes, and the one of the simulator
in Python if the host fits the client's; in both cases the host must be there
and free of colons and the port must not be zero. -/
theorem route_roundtrip {host : List UInt8} (hnul : 0 ∉ host) (port : UInt16) :
    (parseReply (mapperReply host port) = some ⟨host, port⟩ ↔
      host ≠ [] ∧ 58 ∉ host ∧ port ≠ 0 ∧
        host.length + (Digits.print 10 port.toNat).length ≤ 115) ∧
    (parseReply (routeText host port) = some ⟨host, port⟩ ↔
      host ≠ [] ∧ 58 ∉ host ∧ port ≠ 0 ∧ host.length ≤ 127) := by
  obtain ⟨hpos, hfive⟩ := length_print_port port
  refine ⟨route_read hnul port, ?_⟩
  -- the client's buffer cuts the text, and it has room for every host that is read
  have hsame : parseReply (routeText host port) =
      parseReply ((routeText host port).take 255) := by
    rw [parseReply, parseReply, List.take_take, min_self]
  rw [hsame, parseReply_take hnul port (by omega) le_rfl]
  refine and_congr_right fun _ => and_congr_right fun _ => and_congr_right fun _ => ?_
  omega

theorem route_roundtrip_local :
    (parseReply (mapperReply (ascii "127.0.0.1") 6000) = some ⟨ascii "127.0.0.1", 6000⟩ ↔
      ascii "127.0.0.1" ≠ [] ∧ 58 ∉ ascii "127.0.0.1" ∧ (6000 : UInt16) ≠ 0 ∧
        (ascii "127.0.0.1").length + (Digits.print 10 (6000 : UInt16).toNat).length ≤ 115) ∧
    (parseReply (routeText (ascii "127.0.0.1") 6000) = some ⟨ascii "127.0.0.1", 6000⟩ ↔
      ascii "127.0.0.1" ≠ [] ∧ 58 ∉ ascii "127.0.0.1" ∧ (6000 : UInt16) ≠ 0 ∧
        (ascii "127.0.0.1").length ≤ 127) :=
  route_roundtrip (by decide +kernel) 6000

/-! ## one call -/

/-- `vmc_mapper_cfg` with its host; the address is resolved outside the model. -/
structure MapperCfg where
  host : Option (List UInt8)
  port : UInt16
  timeoutMs : UInt32
  maxRetries : UInt32
deriving DecidableEq, Repr

/-- `vmc_mapper_create`; `alloc` is the answer of `calloc`. -/
def vmcMapperCreate (cfg : Option MapperCfg) (alloc : Bool) : Option MapperCfg :=
  cfg.bind fun c =>
    if c.host = none ∨ c.port = 0 ∨ alloc = false then none
    else some { c with
      timeoutMs := if c.timeoutMs = 0 then 1000 else c.timeoutMs
      maxRetries := if c.maxRetries = 0 then 3 else c.maxRetries }

/-- What `vmc_mapper_resolve` returns when it is given a context and a route to
fill in. -/
inductive MapperStatus where
  | ok
  | io
  | proto
  | timeout
deriving DecidableEq, Repr

/-- Where the call is: at the address and the socket, at `send`, at `recv`, or
back at its caller. -/
inductive MapperPc where
  | opening
  | sending
  | receiving
  | returned
deriving DecidableEq, Repr

/-- What the system answers: to `getaddrinfo` and `socket`, to `send`, and to
`recv`, which fails when nothing came in time. -/
inductive MapperEvent where
  | opened (ok : Bool)
  | sent (ok : Bool)
  | silent
  | reply (datagram : List UInt8)
deriving DecidableEq, Repr

/-- The variables of `vmc_mapper_resolve`; `route` is what it stored in
`out_route`. -/
structure MapperCall where
  pc : MapperPc
  attempt : UInt32
  result : MapperStatus
  route : Option MediaRoute
deriving DecidableEq, Repr

def MapperCall.start : MapperCall := ⟨.opening, 0, .timeout, none⟩

/-- The test of the loop. -/
def MapperCall.test (cfg : MapperCfg) (s : MapperCall) : MapperCall :=
  { s with pc := if s.attempt ≤ cfg.maxRetries ∧ s.result ≠ .ok then .sending else .returned }

/-- `attempt++`, and the test. -/
def MapperCall.retry (cfg : MapperCfg) (s : MapperCall) : MapperCall :=
  { s with attempt := s.attempt + 1 }.test cfg

/-- What a datagram does to result and route. -/
def MapperCall.take (s : MapperCall) (datagram : List UInt8) : MapperCall :=
  match parseReply datagram with
  | some r => { s with result := .ok, route := some r }
  | none => { s with result := .proto }

/-- `vmc_mapper_resolve`, up to the next call of the system. -/
def mapperStep (cfg : MapperCfg) (s : MapperCall) : MapperEvent → Option MapperCall
  | .opened ok =>
      if s.pc = .opening then
        some (if ok then s.test cfg else { s with pc := .returned, result := .io })
      else none
  | .sent ok =>
      if s.pc = .sending then
        some { s with
          pc := if ok then .receiving else .returned
          result := if ok then s.result else .io }
      else none
  | .silent => if s.pc = .receiving then some (s.retry cfg) else none
  | .reply datagram => if s.pc = .receiving then some ((s.take datagram).retry cfg) else none

/-! ### what a run was -/

/-- The datagrams that came in. -/
def answers (es : List MapperEvent) : List (List UInt8) :=
  es.filterMap fun e =>
    match e with
    | .reply d => some d
    | _ => none

/-- How many requests went out. -/
def requests (es : List MapperEvent) : Nat := es.count (.sent true)

/-- How often `recv` returned. -/
def waits (es : List MapperEvent) : Nat := es.count .silent + (answers es).length

/-- How a call ends. -/
inductive Outcome (cfg : MapperCfg) (es : List MapperEvent) :
    MapperStatus → Option MediaRoute → Prop where
  /-- The last datagram is the first one that holds a route. -/
  | found {ds : List (List UInt8)} {d : List UInt8} {r : MediaRoute} :
      answers es = ds ++ [d] → (∀ d ∈ ds, parseReply d = none) → parseReply d = some r →
        Outcome cfg es .ok (some r)
  | failed :
      (.opened false ∈ es ∨ .sent false ∈ es) → (∀ d ∈ answers es, parseReply d = none) →
        Outcome cfg es .io none
  | malformed :
      answers es ≠ [] → (∀ d ∈ answers es, parseReply d = none) →
        requests es = cfg.maxRetries.toNat + 1 → Outcome cfg es .proto none
  | unanswered :
      answers es = [] → requests es = cfg.maxRetries.toNat + 1 → Outcome cfg es .timeout none

section

variable {cfg : MapperCfg}

@[simp] theorem answers_nil : answers [] = [] := rfl

@[simp] theorem answers_concat_reply (es : List MapperEvent) (d : List UInt8) :
    answers (es ++ [.reply d]) = answers es ++ [d] := by
  simp [answers]

theorem answers_concat {e : MapperEvent} (es : List MapperEvent) (he : ∀ d, e ≠ .reply d) :
    answers (es ++ [e]) = answers es := by
  cases e with
  | reply d => exact absurd rfl (he d)
  | opened ok => simp [answers]
  | sent ok => simp [answers]
  | silent => simp [answers]

@[simp] theorem requests_nil : requests [] = 0 := rfl

theorem requests_concat (es : List MapperEvent) (e : MapperEvent) :
    requests (es ++ [e]) = requests es + if e = .sent true then 1 else 0 := by
  rw [requests, List.count_append, List.count_singleton, requests]
  simp only [beq_iff_eq]

theorem waits_concat_silent (es : List MapperEvent) : waits (es ++ [.silent]) = waits es + 1 := by
  rw [waits, waits, List.count_append, answers_concat es (fun d h => by cases h)]
  simp
  omega

theorem waits_concat_reply (es : List MapperEvent) (d : List UInt8) :
    waits (es ++ [.reply d]) = waits es + 1 := by
  rw [waits, waits, List.count_append, answers_concat_reply]
  simp
  omega

/-- No datagram held a route yet. -/
def Waiting (es : List MapperEvent) (s : MapperCall) : Prop :=
  s.route = none ∧ (∀ d ∈ answers es, parseReply d = none) ∧
    s.result = if answers es = [] then .timeout else .proto

/-- What holds between two answers of the system. -/
structure MapperCall.Inv (cfg : MapperCfg) (es : List MapperEvent) (s : MapperCall) : Prop where
  fresh : s.pc = .opening → es = []
  attempt : s.attempt = UInt32.ofNat (waits es)
  counted : requests es = waits es + if s.pc = .receiving then 1 else 0
  tried : s.pc = .sending → s.attempt ≤ cfg.maxRetries
  bound : cfg.maxRetries ≠ 4294967295 → requests es ≤ cfg.maxRetries.toNat + 1
  length : es.length ≤ requests es + waits es + if s.pc = .returned then 2 else 1
  waiting : s.pc ≠ .returned → Waiting es s
  ended : s.pc = .returned → Outcome cfg es s.result s.route

theorem MapperCall.inv_start (cfg : MapperCfg) : Inv cfg [] .start where
  fresh _ := rfl
  attempt := rfl
  counted := rfl
  tried h := by cases h
  bound _ := Nat.zero_le _
  length := by decide
  waiting _ := ⟨rfl, fun d hd => absurd hd (by simp), rfl⟩
  ended h := by cases h

/-- The counter of the attempts is exact as long as they are bounded. -/
theorem toNat_attempt {n : Nat} (hmax : cfg.maxRetries ≠ 4294967295)
    (hn : n ≤ cfg.maxRetries.toNat + 1) : (UInt32.ofNat n).toNat = n := by
  have hlt := cfg.maxRetries.toNat_lt
  have hne : cfg.maxRetries.toNat ≠ 4294967295 := fun h => hmax (UInt32.toNat_inj.mp h)
  exact UInt32.toNat_ofNat_of_lt' (show n < 4294967296 by omega)

/-- The test of the loop goes on to the next request, or the call has ended as it
should. -/
theorem MapperCall.inv_test {es : List MapperEvent} {s : MapperCall}
    (hattempt : s.attempt = UInt32.ofNat (waits es)) (hcounted : requests es = waits es)
    (hbound : cfg.maxRetries ≠ 4294967295 → requests es ≤ cfg.maxRetries.toNat + 1)
    (hlength : es.length ≤ requests es + waits es + 1)
    (hresult : Waiting es s ∨ s.result = .ok ∧ Outcome cfg es s.result s.route) :
    Inv cfg es (s.test cfg) := by
  by_cases hgo : s.attempt ≤ cfg.maxRetries ∧ s.result ≠ .ok
  · have htest : s.test cfg = { s with pc := .sending } := by rw [test, if_pos hgo]
    have hwait : Waiting es s := hresult.resolve_right fun h => hgo.2 h.1
    rw [htest]
    exact
      { fresh := fun h => by cases h
        attempt := hattempt
        counted := hcounted
        tried := fun _ => hgo.1
        bound := hbound
        length := hlength
        waiting := fun _ => hwait
        ended := fun h => by cases h }
  · have htest : s.test cfg = { s with pc := .returned } := by rw [test, if_neg hgo]
    have hend : Outcome cfg es s.result s.route := by
      obtain ⟨hroute, hnone, hres⟩ | ⟨-, hout⟩ := hresult
      · -- the loop ended because the attempts are used up
        have hover : ¬ s.attempt ≤ cfg.maxRetries := by
          intro hle
          refine hgo ⟨hle, ?_⟩
          rw [hres]
          split <;> exact fun h => by cases h
        have hmax : cfg.maxRetries ≠ 4294967295 := by
          intro h
          have hlt := s.attempt.toNat_lt
          refine hover (UInt32.le_iff_toNat_le.mpr ?_)
          rw [h]
          exact Nat.le_of_lt_succ hlt
        have hall : requests es = cfg.maxRetries.toNat + 1 := by
          have hle := hbound hmax
          rw [UInt32.le_iff_toNat_le, hattempt, toNat_attempt hmax (hcounted ▸ hle)] at hover
          omega
        rw [hroute, hres]
        split
        · rename_i hnil
          exact .unanswered hnil hall
        · rename_i hsome
          exact .malformed hsome hnone hall
      · exact hout
    rw [htest]
    exact
      { fresh := fun h => by cases h
        attempt := hattempt
        counted := hcounted
        tried := fun h => by cases h
        bound := hbound
        length := hlength.trans (by simp)
        waiting := fun h => absurd rfl h
        ended := fun _ => hend }

/-- A datagram ends the waiting, or it holds no route. -/
theorem MapperCall.take_cases {es : List MapperEvent} {s : MapperCall} (hwait : Waiting es s)
    (d : List UInt8) :
    (s.take d).attempt = s.attempt ∧
      (Waiting (es ++ [.reply d]) (s.take d) ∨
        (s.take d).result = .ok ∧
          Outcome cfg (es ++ [.reply d]) (s.take d).result (s.take d).route) := by
  obtain ⟨hroute, hnone, hres⟩ := hwait
  unfold take
  cases hd : parseReply d with
  | none =>
      refine ⟨rfl, .inl ⟨hroute, fun d' hd' => ?_, ?_⟩⟩
      · rw [answers_concat_reply] at hd'
        obtain hold | hnew := List.mem_append.mp hd'
        · exact hnone d' hold
        · rw [List.mem_singleton.mp hnew]
          exact hd
      · rw [answers_concat_reply, if_neg (by simp)]
  | some r => exact ⟨rfl, .inr ⟨rfl, .found (answers_concat_reply es d) hnone hd⟩⟩

theorem MapperCall.inv_step {es : List MapperEvent} {s s' : MapperCall} {e : MapperEvent}
    (h : Inv cfg es s) (hstep : mapperStep cfg s e = some s') : Inv cfg (es ++ [e]) s' := by
  cases e with
  | opened ok =>
      obtain ⟨hpc, heq⟩ := Option.ite_none_right_eq_some.mp hstep
      obtain rfl := h.fresh hpc
      cases ok with
      | true =>
          obtain rfl := Option.some.inj heq
          refine inv_test h.attempt rfl (fun _ => Nat.zero_le _) (by decide) (.inl ?_)
          exact h.waiting (by simp [hpc])
      | false =>
          obtain rfl := Option.some.inj heq
          have hroute : s.route = none := (h.waiting (by simp [hpc])).1
          exact
            { fresh := fun h => by cases h
              attempt := h.attempt
              counted := rfl
              tried := fun h => by cases h
              bound := fun _ => Nat.zero_le _
              length := by simp
              waiting := fun h => absurd rfl h
              ended := fun _ => by
                simp only [hroute]
                exact .failed (.inl (by simp)) (fun d hd => absurd hd (by simp [answers])) }
  | sent ok =>
      obtain ⟨hpc, heq⟩ := Option.ite_none_right_eq_some.mp hstep
      obtain rfl := Option.some.inj heq
      have hcount : requests es = waits es := by simpa [hpc] using h.counted
      have hlen : es.length ≤ requests es + waits es + 1 := by simpa [hpc] using h.length
      have hans : answers (es ++ [.sent ok]) = answers es :=
        answers_concat es fun d h => by cases h
      have hwaits : waits (es ++ [.sent ok]) = waits es := by
        rw [waits, waits, hans, List.count_append]
        simp
      have hwait : Waiting es s := h.waiting (by simp [hpc])
      cases ok with
      | true =>
          have hreq : requests (es ++ [.sent true]) = requests es + 1 := by
            rw [requests_concat, if_pos rfl]
          exact
            { fresh := fun h => by cases h
              attempt := by rw [hwaits]; exact h.attempt
              counted := by simp [hreq, hwaits, hcount]
              tried := fun h => by cases h
              bound := fun hmax => by
                have hle := h.tried hpc
                have hexact := toNat_attempt hmax (hcount ▸ h.bound hmax)
                rw [UInt32.le_iff_toNat_le, h.attempt, hexact] at hle
                omega
              length := by simp [hreq, hwaits]; omega
              waiting := fun _ => ⟨hwait.1, by rw [hans]; exact hwait.2.1, by
                rw [hans]; exact hwait.2.2⟩
              ended := fun h => by cases h }
      | false =>
          have hreq : requests (es ++ [.sent false]) = requests es := by
            rw [requests_concat, if_neg (by simp), Nat.add_zero]
          exact
            { fresh := fun h => by cases h
              attempt := by rw [hwaits]; exact h.attempt
              counted := by simp [hreq, hwaits, hcount]
              tried := fun h => by cases h
              bound := fun hmax => by rw [hreq]; exact h.bound hmax
              length := by simp [hreq, hwaits]; omega
              waiting := fun h => absurd rfl h
              ended := fun _ => by
                simp only [hwait.1]
                exact .failed (.inr (by simp)) (by rw [hans]; exact hwait.2.1) }
  | silent =>
      obtain ⟨hpc, heq⟩ := Option.ite_none_right_eq_some.mp hstep
      obtain rfl := Option.some.inj heq
      have hcount : requests es = waits es + 1 := by simpa [hpc] using h.counted
      have hlen : es.length ≤ requests es + waits es + 1 := by simpa [hpc] using h.length
      have hreq : requests (es ++ [.silent]) = requests es := by
        rw [requests_concat, if_neg (by simp), Nat.add_zero]
      have hans : answers (es ++ [.silent]) = answers es := answers_concat es fun d h => by cases h
      have hwait : Waiting es s := h.waiting (by simp [hpc])
      refine inv_test ?_ ?_ ?_ ?_ (.inl ⟨hwait.1, ?_, ?_⟩)
      · simp [waits_concat_silent, h.attempt]
      · rw [hreq, waits_concat_silent, hcount]
      · rw [hreq]
        exact h.bound
      · rw [hreq, waits_concat_silent]
        simp
        omega
      · rw [hans]
        exact hwait.2.1
      · rw [hans]
        exact hwait.2.2
  | reply d =>
      obtain ⟨hpc, heq⟩ := Option.ite_none_right_eq_some.mp hstep
      obtain rfl := Option.some.inj heq
      have hcount : requests es = waits es + 1 := by simpa [hpc] using h.counted
      have hlen : es.length ≤ requests es + waits es + 1 := by simpa [hpc] using h.length
      have hreq : requests (es ++ [.reply d]) = requests es := by
        rw [requests_concat, if_neg (by simp), Nat.add_zero]
      obtain ⟨hsame, hresult⟩ := @take_cases cfg es s (h.waiting (by simp [hpc])) d
      refine inv_test ?_ ?_ ?_ ?_ hresult
      · simp [waits_concat_reply, hsame, h.attempt]
      · rw [hreq, waits_concat_reply, hcount]
      · rw [hreq]
        exact h.bound
      · rw [hreq, waits_concat_reply]
        simp
        omega

theorem MapperCall.inv_run {es : List MapperEvent} {s : MapperCall}
    (h : Run.exec (mapperStep cfg) .start es = some s) : s.Inv cfg es :=
  Run.exec_history (MapperCall.Inv cfg) (fun _ _ _ _ hI => MapperCall.inv_step hI)
    (MapperCall.inv_start cfg) h

/-- Every context has a host and a port, and limits that are not zero. -/
theorem vmcMapperCreate_spec {given : Option MapperCfg} {alloc : Bool}
    (h : vmcMapperCreate given alloc = some cfg) :
    cfg.host ≠ none ∧ cfg.port ≠ 0 ∧ cfg.timeoutMs ≠ 0 ∧ cfg.maxRetries ≠ 0 := by
  obtain ⟨c, -, hc⟩ := Option.bind_eq_some_iff.mp h
  by_cases hrefused : c.host = none ∨ c.port = 0 ∨ alloc = false
  · rw [if_pos hrefused] at hc
    cases hc
  · rw [if_neg hrefused] at hc
    obtain rfl := Option.some.inj hc
    obtain ⟨hhost, hport, -⟩ := (not_or.mp hrefused).imp_right not_or.mp
    refine ⟨hhost, hport, ?_, ?_⟩
    · show (if c.timeoutMs = 0 then 1000 else c.timeoutMs) ≠ 0
      split
      · decide
      · assumption
    · show (if c.maxRetries = 0 then 3 else c.maxRetries) ≠ 0
      split
      · decide
      · assumption

/-- A call on a context never gives up after a single request. -/
theorem requests_of_created {given : Option MapperCfg} {alloc : Bool}
    (h : vmcMapperCreate given alloc = some cfg) {es : List MapperEvent} {s : MapperCall}
    (hrun : Run.exec (mapperStep cfg) .start es = some s) (hend : s.pc = .returned)
    (htimeout : s.result = .timeout) : 2 ≤ requests es := by
  have hretries : 0 < cfg.maxRetries.toNat :=
    Nat.pos_of_ne_zero fun h0 => (vmcMapperCreate_spec h).2.2.2 (UInt32.toNat_inj.mp h0)
  have hout := (MapperCall.inv_run hrun).ended hend
  rw [htimeout] at hout
  generalize s.route = route at hout
  cases hout with
  | unanswered hnil hall => omega

end

/-- **A call of `vmc_mapper_resolve`.**  Whatever the system answers, the call
sends at most `max_retries + 1` requests and is over after so many answers; it
succeeds with the first datagram that holds a route, and otherwise its status
says whether a call of the system failed, a datagram came that held no route, or
none came at all.  (A limit of 2³² − 1 is none: the counter wraps.) -/
theorem mapper_call_run {cfg : MapperCfg} {es : List MapperEvent} {s : MapperCall}
    (h : Run.exec (mapperStep cfg) .start es = some s) :
    (cfg.maxRetries ≠ 4294967295 → requests es ≤ cfg.maxRetries.toNat + 1 ∧
      es.length ≤ 2 * cfg.maxRetries.toNat + 4) ∧
    (s.pc = .returned → Outcome cfg es s.result s.route) ∧
    (s.pc ≠ .returned → s.route = none) := by
  have hinv := MapperCall.inv_run h
  refine ⟨fun hmax => ⟨hinv.bound hmax, ?_⟩, hinv.ended, fun hpc => (hinv.waiting hpc).1⟩
  have hreq := hinv.bound hmax
  have hwaits := hinv.counted
  have htwo : (if s.pc = .returned then 2 else 1) ≤ 2 := by split <;> omega
  have hlen := hinv.length
  omega

theorem mapper_call_run_retried :
    ((3 : UInt32) ≠ 4294967295 →
      requests [.opened true, .sent true, .silent, .sent true,
        .reply (mapperReply (ascii "127.0.0.1") 6000)] ≤ (3 : UInt32).toNat + 1 ∧ 5 ≤ 2 * 3 + 4) ∧
    Outcome ⟨some (ascii "127.0.0.1"), 9999, 1000, 3⟩
      [.opened true, .sent true, .silent, .sent true,
        .reply (mapperReply (ascii "127.0.0.1") 6000)] .ok
      (some ⟨ascii "127.0.0.1", 6000⟩) := by
  have hrun : Run.exec (mapperStep ⟨some (ascii "127.0.0.1"), 9999, 1000, 3⟩) .start
      [.opened true, .sent true, .silent, .sent true,
        .reply (mapperReply (ascii "127.0.0.1") 6000)] =
      some ⟨.returned, 2, .ok, some ⟨ascii "127.0.0.1", 6000⟩⟩ := by
    decide +kernel
  obtain ⟨hcount, hend, -⟩ := mapper_call_run hrun
  exact ⟨hcount, hend rfl⟩

/-! ## client and mapper -/

/-- `req` of `vmc_mapper_resolve`. -/
def mapperRequest : List UInt8 := ascii "VMC1 thin-client-01"

/-- A mapper whose route fits its response and is a route: its host is not empty
and has no colon, its port is not zero. -/
structure Mapper where
  bindHost : List UInt8
  mediaPort : UInt16
  noNul : 0 ∉ bindHost
  noColon : 58 ∉ bindHost
  host_ne : bindHost ≠ []
  port_ne : mediaPort ≠ 0
  fits : bindHost.length + (Digits.print 10 mediaPort.toNat).length ≤ 115

def Mapper.response (m : Mapper) : List UInt8 := mapperReply m.bindHost m.mediaPort

/-- The client's call, and every datagram sent so far in either direction. -/
structure Discovery where
  call : MapperCall
  requests : List (List UInt8)
  replies : List (List UInt8)

def Discovery.start : Discovery := ⟨.start, [], []⟩

/-- The client's call goes on, or the mapper receives a request. -/
inductive DiscoveryEvent where
  | client (e : MapperEvent)
  | serve (request : List UInt8)
deriving DecidableEq, Repr

def DiscoveryEvent.call : DiscoveryEvent → Option MapperEvent
  | client e => some e
  | serve _ => none

/-- The socket of the client is connected to the mapper, so what it receives was
sent by the mapper.  A datagram that was sent can arrive at any time, once, more
than once or never. -/
def discoveryStep (cfg : MapperCfg) (m : Mapper) (s : Discovery) :
    DiscoveryEvent → Option Discovery
  | .client e =>
      if ∀ d ∈ answers [e], d ∈ s.replies then
        (mapperStep cfg s.call e).map fun call =>
          { s with
            call := call
            requests := if e = .sent true then mapperRequest :: s.requests else s.requests }
      else none
  | .serve request =>
      if request ∈ s.requests then some { s with replies := m.response :: s.replies } else none

section

variable {cfg : MapperCfg} {m : Mapper}

theorem Mapper.parse_response (m : Mapper) :
    parseReply m.response = some ⟨m.bindHost, m.mediaPort⟩ :=
  (route_read m.noNul m.mediaPort).mpr ⟨m.host_ne, m.noColon, m.port_ne, m.fits⟩

/-- Only the mapper's response travels to the client. -/
theorem discovery_replies {s s' : Discovery} {e : DiscoveryEvent}
    (h : ∀ d ∈ s.replies, d = m.response) (hstep : discoveryStep cfg m s e = some s') :
    ∀ d ∈ s'.replies, d = m.response := by
  cases e with
  | client e =>
      obtain ⟨-, heq⟩ := Option.ite_none_right_eq_some.mp hstep
      obtain ⟨call, -, rfl⟩ := Option.map_eq_some_iff.mp heq
      exact h
  | serve request =>
      obtain ⟨-, heq⟩ := Option.ite_none_right_eq_some.mp hstep
      obtain rfl := Option.some.inj heq
      exact List.forall_mem_cons.mpr ⟨rfl, h⟩

/-- Everything under way to the client, and everything it received, is the
mapper's response. -/
def Discovery.Inv (m : Mapper) (es : List DiscoveryEvent) (s : Discovery) : Prop :=
  (∀ d ∈ s.replies, d = m.response) ∧
    ∀ d ∈ answers (es.filterMap DiscoveryEvent.call), d = m.response

theorem discovery_inv_start (m : Mapper) : Discovery.start.Inv m [] :=
  ⟨fun d hd => (by cases hd), fun d hd => (by cases hd)⟩

theorem discovery_inv_step (es : List DiscoveryEvent) (s : Discovery) (e : DiscoveryEvent)
    (s' : Discovery) (h : s.Inv m es) (hstep : discoveryStep cfg m s e = some s') :
    s'.Inv m (es ++ [e]) := by
  obtain ⟨hsent, hgot⟩ := h
  refine ⟨discovery_replies hsent hstep, fun d hd => ?_⟩
  rw [List.filterMap_append, answers, List.filterMap_append, ← answers, ← answers] at hd
  obtain hold | hnew := List.mem_append.mp hd
  · exact hgot d hold
  · cases e with
    | client e =>
        obtain ⟨hin, -⟩ := Option.ite_none_right_eq_some.mp hstep
        exact hsent d (hin d hnew)
    | serve request => cases hnew

/-- The client runs its own call. -/
theorem discovery_call {es : List DiscoveryEvent} {s s' : Discovery}
    (h : Run.exec (discoveryStep cfg m) s es = some s') :
    Run.exec (mapperStep cfg) s.call (es.filterMap DiscoveryEvent.call) = some s'.call := by
  refine Run.exec_project Discovery.call DiscoveryEvent.call ?_ ?_ h
  · intro s e s' d hstep he
    cases e with
    | client e =>
        obtain rfl := Option.some.inj he
        obtain ⟨-, heq⟩ := Option.ite_none_right_eq_some.mp hstep
        obtain ⟨call, hcall, rfl⟩ := Option.map_eq_some_iff.mp heq
        exact hcall
    | serve request => cases he
  · intro s e s' hstep he
    cases e with
    | client e => cases he
    | serve request =>
        obtain ⟨-, heq⟩ := Option.ite_none_right_eq_some.mp hstep
        obtain rfl := Option.some.inj heq
        rfl

theorem mem_client {es : List DiscoveryEvent} {e : MapperEvent} :
    e ∈ es.filterMap DiscoveryEvent.call ↔ .client e ∈ es := by
  rw [List.mem_filterMap]
  constructor
  · rintro ⟨d, hd, hcall⟩
    cases d with
    | client d =>
        obtain rfl := Option.some.inj hcall
        exact hd
    | serve request => cases hcall
  · exact fun h => ⟨_, h, rfl⟩

theorem requests_client (es : List DiscoveryEvent) :
    requests (es.filterMap DiscoveryEvent.call) = es.count (.client (.sent true)) := by
  induction es with
  | nil => rfl
  | cons e es ih =>
      cases e with
      | client e =>
          have hcall : DiscoveryEvent.call (.client e) = some e := rfl
          rw [List.filterMap_cons_some hcall, requests, List.count_cons, List.count_cons,
            ← requests, ih]
          simp
      | serve request =>
          have hcall : DiscoveryEvent.call (.serve request) = none := rfl
          rw [List.filterMap_cons_none hcall, ih, List.count_cons_of_ne (by simp)]

end

/-- **Discovery.**  Between this client and a mapper whose response is a route
(`Mapper`), a call that is over has found that mapper's route with the first datagram it received,
or it received none, and then a call of the system failed or all of the
`max_retries + 1` requests stayed without an answer.  It never takes a route
that the mapper did not announce, nor for malformed what the mapper sent. -/
theorem discovery_run {cfg : MapperCfg} {m : Mapper} {es : List DiscoveryEvent} {s : Discovery}
    (h : Run.exec (discoveryStep cfg m) .start es = some s) (hend : s.call.pc = .returned) :
    (answers (es.filterMap DiscoveryEvent.call) = [m.response] ∧ s.call.result = .ok ∧
      s.call.route = some ⟨m.bindHost, m.mediaPort⟩) ∨
    (answers (es.filterMap DiscoveryEvent.call) = [] ∧ s.call.route = none ∧
      (s.call.result = .io ∧ (.client (.opened false) ∈ es ∨ .client (.sent false) ∈ es) ∨
        s.call.result = .timeout ∧
          es.count (.client (.sent true)) = cfg.maxRetries.toNat + 1)) := by
  have hcall := discovery_call h
  have hgot : ∀ d ∈ answers (es.filterMap DiscoveryEvent.call), d = m.response :=
    (Run.exec_history (Discovery.Inv m) discovery_inv_step (discovery_inv_start m) h).2
  have hread : ∀ d ∈ answers (es.filterMap DiscoveryEvent.call), parseReply d ≠ none := by
    intro d hd
    rw [hgot d hd, m.parse_response]
    exact Option.some_ne_none _
  have hsilent : (∀ d ∈ answers (es.filterMap DiscoveryEvent.call), parseReply d = none) →
      answers (es.filterMap DiscoveryEvent.call) = [] := fun hnone =>
    List.eq_nil_iff_forall_not_mem.mpr fun d hd => hread d hd (hnone d hd)
  have hout := (MapperCall.inv_run hcall).ended hend
  generalize hres : s.call.result = res at hout
  generalize hroute : s.call.route = route at hout
  cases hout with
  | @found ds d r hall hnone hd =>
      rw [hall] at hgot hread
      have hfirst : ds = [] := List.eq_nil_iff_forall_not_mem.mpr fun d hd =>
        hread d (List.mem_append_left _ hd) (hnone d hd)
      have hlast : d = m.response := hgot d (by simp)
      rw [hlast, m.parse_response] at hd
      obtain rfl := Option.some.inj hd
      exact .inl ⟨by rw [hall, hfirst, hlast]; rfl, rfl, rfl⟩
  | failed hfail hnone =>
      refine .inr ⟨hsilent hnone, rfl, .inl ⟨rfl, ?_⟩⟩
      exact hfail.imp mem_client.mp mem_client.mp
  | malformed hsome hnone hall => exact absurd (hsilent hnone) hsome
  | unanswered hnil hall =>
      rw [requests_client] at hall
      exact .inr ⟨hnil, rfl, .inr ⟨rfl, hall⟩⟩

/-- The mapper of a simulator that is started without arguments. -/
def localMapper : Mapper where
  bindHost := ascii "127.0.0.1"
  mediaPort := 6000
  noNul := by decide +kernel
  noColon := by decide +kernel
  host_ne := by decide +kernel
  port_ne := by decide
  fits := by decide +kernel

/-- The first request is late: it is answered when the second one is waited
for. -/
def lateRun : List DiscoveryEvent :=
  [.client (.opened true), .client (.sent true), .client .silent, .client (.sent true),
    .serve mapperRequest, .serve mapperRequest, .client (.reply localMapper.response)]

theorem discovery_run_late :
    answers (lateRun.filterMap DiscoveryEvent.call) = [localMapper.response] := by
  have hrun : ∃ s, Run.exec (discoveryStep ⟨some (ascii "127.0.0.1"), 9999, 1000, 3⟩ localMapper)
      .start lateRun = some s ∧ s.call.pc = .returned := by
    refine ⟨⟨⟨.returned, 2, .ok, some ⟨localMapper.bindHost, localMapper.mediaPort⟩⟩,
      [mapperRequest, mapperRequest], [localMapper.response, localMapper.response]⟩, ?_, rfl⟩
    rfl
  obtain ⟨s, hexec, hend⟩ := hrun
  obtain ⟨hgot, -, -⟩ | ⟨hnone, -, -⟩ := discovery_run hexec hend
  · exact hgot
  · exact absurd hnone (by decide +kernel)

end Vmc
