/-
  THE TCP TRANSPORT (pkg/cluster/transport.go): the calls of `Send` to one address share one connection, and a
  response does not say which message it answers.

  The messages are numbered here as they are encoded. What a decoder reads ahead is lost with it, here in
  whole responses.

  Main result: `responses_own`, that no call gets another's response if calls do not overlap.
-/
import LimyeDB.Lib.Runs
import LimyeDB.Go.Bytes

namespace LimyeDB.Transport

open Go LimyeDB.Lib.Runs List

/-- `waiting` are the calls between encode and decode; `returned` has each with the message
    that its response is of. -/
structure Conn where
  sends : ℕ
  requests : List ℕ
  responses : List (ℕ × Bytes)
  waiting : List ℕ
  returned : List (ℕ × ℕ × Bytes)

def dial : Conn := ⟨0, [], [], [], []⟩

inductive Step where
  | encode
  | handle (response : Option Bytes)
  | decode (i ahead : ℕ)

def step (conn : Conn) : Step → Option Conn
  | .encode => some { conn with
      sends := conn.sends + 1
      requests := conn.requests ++ [conn.sends]
      waiting := conn.waiting ++ [conn.sends] }
  | .handle response => match conn.requests with
    | [] => none
    | i :: requests => some { conn with
        requests := requests
        responses := conn.responses ++ response.toList.map (i, ·) }
  | .decode i ahead => match conn.responses with
    | [] => none
    | response :: responses => if i ∈ conn.waiting then some { conn with
        responses := responses.drop ahead
        waiting := conn.waiting.erase i
        returned := (i, response) :: conn.returned } else none

/-- No call begins while another waits. -/
def Sequential (conn : Conn) : Step → Prop
  | .encode => conn.waiting = []
  | _ => True

def Conn.inFlight (conn : Conn) : List ℕ := conn.responses.map Prod.fst ++ conn.requests

structure Paired (conn : Conn) : Prop where
  inFlight : conn.inFlight <+: conn.waiting
  single : conn.waiting.length ≤ 1
  returned : ∀ r ∈ conn.returned, r.2.1 = r.1

theorem Paired.step {conn conn' : Conn} {l : Step} (h : Paired conn) (hl : Sequential conn l)
    (hstep : step conn l = some conn') : Paired conn' := by
  obtain ⟨hflight, hsingle, hret⟩ := h
  rw [Conn.inFlight] at hflight
  cases l with
  | encode =>
    cases hstep
    rw [show conn.waiting = [] from hl, prefix_nil, append_eq_nil_iff] at hflight
    refine ⟨?_, ?_, hret⟩ <;> simp [Conn.inFlight, hflight, show conn.waiting = [] from hl]
  | handle response =>
    cases hreq : conn.requests with
    | nil => simp [Transport.step, hreq] at hstep
    | cons i requests =>
      simp only [Transport.step, hreq, Option.some.injEq] at hstep
      subst hstep
      have hlen := hflight.length_le.trans hsingle
      simp only [hreq, length_append, length_map, length_cons] at hlen
      have hres := eq_nil_of_length_eq_zero (show conn.responses.length = 0 by omega)
      have hrest := eq_nil_of_length_eq_zero (show requests.length = 0 by omega)
      rw [hreq, hres, hrest] at hflight
      refine ⟨?_, hsingle, hret⟩
      cases response with
      | none => simp [Conn.inFlight, hres, hrest]
      | some r => simpa [Conn.inFlight, hres, hrest] using hflight
  | decode i ahead =>
    cases hres : conn.responses with
    | nil => simp [Transport.step, hres] at hstep
    | cons r responses =>
      simp only [Transport.step, hres, Option.ite_none_right_eq_some, Option.some.injEq] at hstep
      obtain ⟨hi, rfl⟩ := hstep
      rw [hres] at hflight
      obtain ⟨t, ht⟩ := hflight
      obtain ⟨rfl, hreq, rfl⟩ : responses = [] ∧ conn.requests = [] ∧ t = [] := by
        simpa [← ht, Nat.add_eq_zero_iff] using hsingle
      have hw : conn.waiting = [r.1] := by simpa [hreq] using ht.symm
      obtain rfl : i = r.1 := by simpa [hw] using hi
      refine ⟨?_, ?_, forall_mem_cons.mpr ⟨rfl, hret⟩⟩ <;> simp [Conn.inFlight, hreq, hw]

/-- **Every call that returned has the response to its own message, in every run in which no call
    begins while another waits.** -/
theorem responses_own {l : List Step} {conn : Conn} (hl : Along step Sequential dial l)
    (hrun : run step dial l = some conn) : ∀ r ∈ conn.returned, r.2.1 = r.1 := by
  have hdial : Paired dial := ⟨⟨_, rfl⟩, Nat.zero_le 1, by simp [dial]⟩
  exact (run_along (fun _ _ _ h hl hstep => h.step hl hstep) hdial hl hrun).returned

/-- The first call gets its response, and the second one waits for one that does not come. -/
theorem responses_own_two : ∃ conn,
    run step dial [.encode, .handle (some [7]), .decode 0 0, .encode, .handle none] = some conn ∧
      conn.returned = [(0, 0, [7])] ∧ conn.waiting = [1] ∧ ∀ r ∈ conn.returned, r.2.1 = r.1 := by
  refine ⟨_, rfl, rfl, rfl, responses_own
    (l := [.encode, .handle (some [7]), .decode 0 0, .encode, .handle none]) ?_ rfl⟩
  refine ⟨rfl, ?_⟩
  rintro _ ⟨⟩
  refine ⟨trivial, ?_⟩
  rintro _ ⟨⟩
  refine ⟨trivial, ?_⟩
  rintro _ ⟨⟩
  exact ⟨rfl, fun _ _ => ⟨trivial, fun _ _ => trivial⟩⟩

/-- The first message has no response, and its call gets that of the second. -/
theorem response_of_another :
    (run step dial [.encode, .encode, .handle none, .handle (some [7]), .decode 0 0]).map Conn.returned =
      some [(0, 1, [7])] := rfl

end LimyeDB.Transport
