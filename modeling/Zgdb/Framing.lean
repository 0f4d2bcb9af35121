/-
# The message loop of the server

`main.c` of the server reads a request as four bytes of size and as many bytes of payload, each
with one `recv`, and hands the buffer to the XML parser.  `recv` may return less than it was asked
for, and the loop does not look at how much it got.  While every call is answered in full the
payloads are handed over as they were sent and the stream stands at the right place
(`message_framing`); the first call that is not breaks this.
-/
import Zgdb.Data
import Zgdb.Lib.Run
import Zgdb.Lib.Stream

namespace Zgdb

open Zgdb.Lib

/-! ## 1. Requests and the connection

The connection is what has arrived and what is in flight.  A call of `recv` takes any part of it
that is not empty, up to what was asked for. -/

/-- What a client sends: `xmlDocDumpMemory` gives a text of positive `int` size. -/
structure Request where
  payload : List UInt8
  nonempty : 0 < payload.length
  fits : payload.length < 2 ^ 31

/-- The bytes of a request: two calls of `send`. -/
def Request.sent (r : Request) : List UInt8 := le 4 r.payload.length ++ r.payload

/-- Where the loop of the server is. -/
inductive Phase where
  | size
  | payload
  | closed
deriving DecidableEq, Repr

/-- The connection as the server has it: the bytes of `int msgSize`, what is in flight, and the
buffers that were handed to the XML parser.  TCP delivers bytes, not messages, so what is in flight
is one list of bytes. -/
structure Connection where
  phase : Phase
  msgSize : Fin 4 → UInt8
  inFlight : List UInt8
  handed : List (List UInt8)

/-- What is not in the hands of the loop at a `recv`: how many bytes it returns, what lies in the
stack where `buf` is put, and the size of the answer to the request. -/
structure Received where
  count : Nat
  stack : Nat → UInt8
  answer : UInt32

/-- `char buf[msgSize]` after the `recv` into it. -/
def buffer (msgSize : Nat) (got : List UInt8) (stack : Nat → UInt8) : List UInt8 :=
  (List.range msgSize).map fun i => got.getD i (stack i)

/-- The value of `msgSize` while it is not negative. -/
def Connection.size (c : Connection) : Nat := leValue (List.ofFn c.msgSize)

/-- One `recv` of the loop and what follows it.  An array of negative size is undefined. -/
def Connection.step (c : Connection) (r : Received) : Option Connection :=
  match c.phase with
  | .size =>
    (recv 4 r.count c.inFlight).map fun (got, rest) =>
      if got = [] then { c with phase := .closed }
      else { c with
        phase := .payload
        msgSize := fun i => got.getD i (c.msgSize i)
        inFlight := rest }
  | .payload =>
    if 2 ^ 31 ≤ c.size then none
    else
      (recv c.size r.count c.inFlight).map fun (got, rest) =>
        if got = [] then { c with phase := .closed }
        else
          { phase := .size
            msgSize := fun i => (le 4 r.answer.toNat).getD i 0
            inFlight := rest
            handed := c.handed ++ [buffer c.size got r.stack] }
  | .closed => none

/-- An accepted connection, with all that the client will send. -/
def accept (requests : List Request) : Connection where
  phase := .size
  msgSize := fun _ => 0
  inFlight := requests.flatMap Request.sent
  handed := []

/-! ## 2. A connection in step

The invariant: what was handed over are the first requests, and what is in flight begins with the
next one, or with its payload. -/

/-- The requests split into those that were handed over and those that are in flight; the loop
stands between two of them, or behind the size of the next one.  As long as every `recv` gets what
it asks for, this is an invariant. -/
def InStep (requests : List Request) (c : Connection) : Prop :=
  ∃ done rest, requests = done ++ rest ∧ c.handed = done.map Request.payload ∧
    match c.phase with
    | .size => c.inFlight = rest.flatMap Request.sent
    | .payload => ∃ r rs, rest = r :: rs ∧ c.size = r.payload.length ∧
        c.inFlight = r.payload ++ rs.flatMap Request.sent
    | .closed => rest = []

/-- How many bytes the next `recv` asks for. -/
def Connection.asked (c : Connection) : Nat :=
  match c.phase with
  | .size => 4
  | .payload => c.size
  | .closed => 0

/-- The call gets what it asks for, while there is anything in flight.  TCP does not promise this:
`recv` may return as soon as some bytes are there. -/
def Connection.Whole (c : Connection) (r : Received) : Prop :=
  c.inFlight ≠ [] → r.count = c.asked

variable {requests : List Request} {c c' : Connection} {r : Received}

@[simp] theorem length_le4 (v : Nat) : (le 4 v).length = 4 := rfl

/-- A size that was received whole. -/
theorem size_received (n : Nat) (h : n < 2 ^ 31) (old : Fin 4 → UInt8) :
    leValue (List.ofFn fun i : Fin 4 => (le 4 n).getD i (old i)) = n := by
  have hofFn : (List.ofFn fun i : Fin 4 => (le 4 n).getD i (old i)) = le 4 n := by
    simp [List.ofFn_succ, le]
  rw [hofFn]
  exact leValue_le 4 n (by omega)

theorem buffer_self (got : List UInt8) (stack : Nat → UInt8) :
    buffer got.length got stack = got := by
  refine List.ext_getElem (by simp [buffer]) ?_
  intro i h _
  simp only [buffer, List.length_map, List.length_range] at h
  simp [buffer, h]

theorem Request.sent_ne_nil (r : Request) : r.sent ≠ [] := by
  intro h
  simpa [Request.sent] using congrArg List.length h

theorem inStep_accept (requests : List Request) : InStep requests (accept requests) :=
  ⟨[], requests, rfl, rfl, rfl⟩

/-! ## 3. One call

A call that is answered in full keeps the connection in step, and one that is not does not. -/

/-- A call that gets all of a size or of a payload, or the end of the stream. -/
theorem InStep.whole (h : InStep requests c) (hw : c.Whole r) (hs : c.step r = some c') :
    InStep requests c' := by
  obtain ⟨done, rest, hreq, hhanded, hphase⟩ := h
  unfold Connection.step at hs
  unfold Connection.Whole Connection.asked at hw
  rcases hc : c.phase with _ | _ | _ <;> simp only [hc] at hs hphase hw
  · -- the size of the next request
    cases rest with
    | nil =>
      rw [hphase] at hs
      obtain ⟨⟨got, left⟩, hrecv, hc'⟩ := Option.map_eq_some_iff.mp hs
      have hgot : got = [] := by
        have happ := (recv_eq_some hrecv).1
        rw [List.flatMap_nil, List.nil_eq_append_iff] at happ
        exact happ.1
      simp only [hgot, if_true] at hc'
      subst hc'
      exact ⟨done, [], hreq, hhanded, rfl⟩
    | cons q rest =>
      have hne : c.inFlight ≠ [] := by
        rw [hphase, List.flatMap_cons]
        simp [q.sent_ne_nil]
      have hflight : c.inFlight
          = le 4 q.payload.length ++ (q.payload ++ rest.flatMap Request.sent) := by
        rw [hphase, List.flatMap_cons, Request.sent, List.append_assoc]
      have hrecv : recv 4 r.count c.inFlight
          = some (le 4 q.payload.length, q.payload ++ rest.flatMap Request.sent) := by
        rw [hw hne, hflight]
        exact recv_append (le 4 q.payload.length) _
      rw [hrecv, Option.map_some, Option.some.injEq] at hs
      subst hs
      exact ⟨done, q :: rest, hreq, hhanded, q, rest, rfl, size_received _ q.fits _, rfl⟩
  · -- its payload
    obtain ⟨q, rs, hrest, hsize, hflight⟩ := hphase
    have hpos := q.nonempty
    have hne : q.payload ≠ [] := List.ne_nil_of_length_pos hpos
    have hcount : r.count = q.payload.length := by
      rw [hw (by rw [hflight]; simp [hne]), hsize]
    rw [hsize, if_neg (by have := q.fits; omega), hcount, hflight, recv_append, Option.map_some,
      Option.some.injEq, if_neg hne] at hs
    subst hs
    refine ⟨done ++ [q], rs, by simp [hreq, hrest], ?_, rfl⟩
    simp [hhanded, buffer_self]
  · cases hs

/-- **A call that is cut short puts the connection out of step.** -/
theorem InStep.short (h : InStep requests c) (hw : ¬ c.Whole r) (hs : c.step r = some c') :
    ¬ InStep requests c' := by
  rintro ⟨done', rest', hreq', hhanded', hphase'⟩
  obtain ⟨done, rest, hreq, hhanded, hphase⟩ := h
  unfold Connection.step at hs
  rw [Connection.Whole, Classical.not_imp] at hw
  obtain ⟨hne, hcount⟩ := hw
  unfold Connection.asked at hcount
  rcases hc : c.phase with _ | _ | _ <;> simp only [hc] at hs hphase hcount
  · obtain ⟨⟨got, left⟩, hrecv, hc'⟩ := Option.map_eq_some_iff.mp hs
    obtain ⟨happ, hlen, hle, hzero⟩ := recv_eq_some hrecv
    have hgot : got ≠ [] := by
      intro hgot
      have h0 : r.count = 0 := by rw [← hlen, hgot, List.length_nil]
      rcases hzero h0 with h4 | hnil
      · cases h4
      · exact hne (List.length_eq_zero_iff.mp hnil)
    simp only [if_neg hgot] at hc'
    subst hc'
    -- as many requests were handed over, and less than a size is gone from the stream
    obtain ⟨q, rs, hrest', -, hflight'⟩ := hphase'
    have hsplit := List.append_inj (hreq.symm.trans hreq')
      (by rw [← List.length_map Request.payload, ← hhanded, hhanded', List.length_map])
    rw [hphase, hsplit.2, hrest', List.flatMap_cons, Request.sent] at happ
    have hlength := congrArg List.length happ
    simp only at hflight'
    simp only [hflight', List.length_append, length_le4] at hlength
    omega
  · obtain ⟨q, rs, hrest, hsize, hflight⟩ := hphase
    rw [hsize, if_neg (by have := q.fits; omega)] at hs
    obtain ⟨⟨got, left⟩, hrecv, hc'⟩ := Option.map_eq_some_iff.mp hs
    obtain ⟨happ, hlen, hle, hzero⟩ := recv_eq_some hrecv
    have hgot : got ≠ [] := by
      intro hgot
      have h0 : r.count = 0 := by rw [← hlen, hgot, List.length_nil]
      rcases hzero h0 with hq | hnil
      · have := q.nonempty
        omega
      · exact hne (List.length_eq_zero_iff.mp hnil)
    simp only [if_neg hgot] at hc'
    subst hc'
    -- one more request was handed over, and not all of its payload is gone
    simp only at hphase' hhanded'
    have hdone := congrArg List.length hhanded'
    rw [hhanded] at hdone
    simp only [List.length_append, List.length_map, List.length_singleton] at hdone
    have hsplit := List.append_inj
      (show (done ++ [q]) ++ rs = done' ++ rest' by rw [← hreq', hreq, hrest]; simp) (by simpa)
    rw [hflight, hsplit.2, hphase'] at happ
    have hlength := congrArg List.length happ
    simp only [List.length_append] at hlength
    omega
  · cases hs

/-! ## 4. Runs

The invariant over any number of calls, and what can always follow: the rest of the requests can be
served. -/

/-- What is still to come, with the end of the connection. -/
def Connection.left (c : Connection) : Nat :=
  c.inFlight.length + if c.phase = .closed then 0 else 1

/-- A connection in step takes a next step, towards its end. -/
theorem InStep.progress (h : InStep requests c) (hc : c.phase ≠ .closed) :
    ∃ r c', c.Whole r ∧ c.step r = some c' ∧ c'.left < c.left := by
  obtain ⟨done, rest, hreq, hhanded, hphase⟩ := h
  cases hp : c.phase with
  | size =>
    rw [hp] at hphase
    cases rest with
    | nil =>
      have hnil : c.inFlight = [] := hphase
      refine ⟨⟨0, fun _ => 0, 0⟩, { c with phase := .closed }, fun hne => absurd hnil hne, ?_, ?_⟩
      · simp [Connection.step, hp, hnil, recv_nil]
      · simp [Connection.left, hp]
    | cons q rest =>
      have hflight : c.inFlight
          = le 4 q.payload.length ++ (q.payload ++ rest.flatMap Request.sent) := by
        rw [hphase, List.flatMap_cons, Request.sent, List.append_assoc]
      have hrecv := recv_append (le 4 q.payload.length) (q.payload ++ rest.flatMap Request.sent)
      rw [length_le4, ← hflight] at hrecv
      have hs : c.step ⟨4, fun _ => 0, 0⟩ = some { c with
          phase := .payload
          msgSize := fun i => (le 4 q.payload.length).getD i (c.msgSize i)
          inFlight := q.payload ++ rest.flatMap Request.sent } := by
        simp [Connection.step, hp, hrecv, le]
      refine ⟨_, _, fun _ => by simp [Connection.asked, hp], hs, ?_⟩
      simp [Connection.left, hp, hflight, le]
  | payload =>
    rw [hp] at hphase
    obtain ⟨q, rs, hrest, hsize, hflight⟩ := hphase
    have hpos := q.nonempty
    have hfits := q.fits
    have hne : q.payload ≠ [] := List.ne_nil_of_length_pos hpos
    have hrecv := recv_append q.payload (rs.flatMap Request.sent)
    rw [← hflight] at hrecv
    have hs : c.step ⟨q.payload.length, fun _ => 0, 0⟩ = some
        { phase := .size
          msgSize := fun i => (le 4 0).getD i 0
          inFlight := rs.flatMap Request.sent
          handed := c.handed ++ [buffer q.payload.length q.payload fun _ => 0] } := by
      simp only [Connection.step, hp, hsize]
      rw [if_neg (by omega), hrecv, Option.map_some, if_neg hne]
      rfl
    refine ⟨_, _, fun _ => by simp [Connection.asked, hp, hsize], hs, ?_⟩
    simp [Connection.left, hp, hflight, hpos]
  | closed => exact absurd hp hc

/-- A connection in step can be served to its end. -/
theorem InStep.closes (h : InStep requests c) :
    ∃ rs c', Run Connection.step Connection.Whole c rs c' ∧ c'.phase = .closed := by
  obtain ⟨n, hn⟩ : ∃ n, c.left = n := ⟨_, rfl⟩
  induction n using Nat.strong_induction_on generalizing c with
  | _ n ih =>
    by_cases hc : c.phase = .closed
    · exact ⟨[], c, .nil c, hc⟩
    · obtain ⟨r, c1, hw, hs, hlt⟩ := h.progress hc
      obtain ⟨rs, c2, hrun, hclosed⟩ := ih c1.left (hn ▸ hlt) (h.whole hw hs) rfl
      exact ⟨_, c2, ((Run.nil c).snoc hw hs).append hrun, hclosed⟩

/-- **The messages keep their frames** in every run whose calls are whole: the connection is in
step, at its end all payloads were handed over as they were sent, and it can be served up to there.
A call that is not whole ends this. -/
theorem message_framing {rs : List Received}
    (h : Run Connection.step Connection.Whole (accept requests) rs c) :
    InStep requests c ∧
      (c.phase = .closed → c.handed = requests.map Request.payload) ∧
      (∃ rs' c', Run Connection.step Connection.Whole c rs' c' ∧ c'.phase = .closed) ∧
      ∀ r c', c.step r = some c' → (InStep requests c' ↔ c.Whole r) := by
  have hin : InStep requests c :=
    h.inv (inStep_accept requests) fun _ _ _ hi hw hs => hi.whole hw hs
  refine ⟨hin, ?_, hin.closes, fun r c' hs => ⟨?_, ?_⟩⟩
  · intro hclosed
    obtain ⟨done, rest, hreq, hhanded, hphase⟩ := hin
    rw [hclosed] at hphase
    have hrest : rest = [] := hphase
    rw [hhanded, hreq, hrest, List.append_nil]
  · intro hin'
    by_contra hw
    exact hin.short hw hs hin'
  · intro hw
    exact hin.whole hw hs

/-- `<a/>` -/
def shortRequest : Request := ⟨[60, 97, 47, 62], by decide, by decide⟩

/-- One request that is received whole. -/
theorem message_framing_single : ∃ rs c,
    Run Connection.step Connection.Whole (accept [shortRequest]) rs c ∧
      c.handed = [shortRequest.payload] := by
  obtain ⟨-, -, ⟨rs, c, hrun, hclosed⟩, -⟩ := message_framing (.nil (accept [shortRequest]))
  exact ⟨rs, c, hrun, (message_framing hrun).2.1 hclosed⟩

/-- A payload that arrives in two pieces is handed over cut short. -/
theorem payload_truncated : ∃ requests rs c,
    Run Connection.step (fun _ _ => True) (accept requests) rs c ∧
      ¬ c.handed <+: requests.map Request.payload ∧ ¬ InStep requests c := by
  obtain ⟨c1, hc1⟩ : ∃ c1, (accept [shortRequest]).step ⟨4, fun _ => 0, 0⟩ = some c1 := ⟨_, rfl⟩
  obtain ⟨c2, hc2⟩ : ∃ c2, c1.step ⟨2, fun _ => 0, 0⟩ = some c2 := by
    cases hc1
    exact ⟨_, rfl⟩
  have hin : InStep [shortRequest] c1 :=
    (inStep_accept _).whole (fun _ => rfl) hc1
  refine ⟨[shortRequest], _, c2, ((Run.nil _).snoc trivial hc1).snoc trivial hc2, ?_,
    hin.short ?_ hc2⟩
  · cases hc1
    cases hc2
    decide
  · cases hc1
    exact fun hw => absurd (hw (by decide)) (by decide)

end Zgdb
