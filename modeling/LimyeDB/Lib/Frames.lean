/-
  READING A FILE OF FRAMES, over any decoder: decode, act, repeat until the decoder answers with an error that
  is taken for the end.
-/
import LimyeDB.Go.Bytes

namespace Frames

open Go List

variable {ε α σ : Type}

/-! ## The loop -/

/-- A decoder that consumes something whenever it answers with a frame. -/
def Progress (dec : Bytes → Outcome ε (α × Bytes)) : Prop :=
  ∀ s a rest, dec s = .value (a, rest) → rest.length < s.length

/-- `for { a, err := dec(r); if err != nil { if isEnd(err) { break }; return err }; step(a) }`. -/
def readLoop (dec : Bytes → Outcome ε (α × Bytes)) (isEnd : ε → Bool)
    (step : σ → α → Outcome ε σ) : Nat → σ → Bytes → Outcome ε σ
  | 0, acc, _ => .value acc
  | fuel + 1, acc, s =>
    match dec s with
    | .value (a, rest) => step acc a >>= fun acc' => readLoop dec isEnd step fuel acc' rest
    | .error e => if isEnd e then .value acc else .error e
    | .panic => .panic

/-- The loop over a whole file; no frame is empty, so one turn a byte is enough. -/
def readAll (dec : Bytes → Outcome ε (α × Bytes)) (isEnd : ε → Bool)
    (step : σ → α → Outcome ε σ) (acc : σ) (s : Bytes) : Outcome ε σ :=
  readLoop dec isEnd step (s.length + 1) acc s

section Loop

variable {dec : Bytes → Outcome ε (α × Bytes)} {isEnd : ε → Bool} {step : σ → α → Outcome ε σ}

theorem readLoop_fuel (hp : Progress dec) :
    ∀ (n m : Nat) (acc : σ) (s : Bytes), s.length < n → s.length < m →
      readLoop dec isEnd step n acc s = readLoop dec isEnd step m acc s
  | 0, _, _, _, hn, _ => by omega
  | _, 0, _, _, _, hm => by omega
  | n + 1, m + 1, acc, s, hn, hm => by
      unfold readLoop
      cases hd : dec s with
      | value ar =>
        obtain ⟨a, rest⟩ := ar
        have hlt := hp s a rest hd
        show (step acc a >>= fun acc' => readLoop dec isEnd step n acc' rest) =
          (step acc a >>= fun acc' => readLoop dec isEnd step m acc' rest)
        congr 1
        funext acc'
        exact readLoop_fuel hp n m acc' rest (by omega) (by omega)
      | error e => rfl
      | panic => rfl

theorem readAll_value (hp : Progress dec) {s rest : Bytes} {a : α} (acc : σ)
    (h : dec s = .value (a, rest)) :
    readAll dec isEnd step acc s = step acc a >>= fun acc' => readAll dec isEnd step acc' rest := by
  have hlt := hp s a rest h
  unfold readAll
  rw [readLoop]
  simp only [h]
  congr 1
  funext acc'
  exact readLoop_fuel hp _ _ acc' rest (by omega) (by omega)

theorem readAll_end {s : Bytes} {e : ε} (acc : σ) (h : dec s = .error e) (he : isEnd e = true) :
    readAll dec isEnd step acc s = .value acc := by
  unfold readAll
  rw [readLoop]
  simp [h, he]

theorem readAll_error {s : Bytes} {e : ε} (acc : σ) (h : dec s = .error e)
    (he : isEnd e = false) : readAll dec isEnd step acc s = .error e := by
  unfold readAll
  rw [readLoop]
  simp [h, he]

theorem readAll_panic {s : Bytes} (acc : σ) (h : dec s = .panic) :
    readAll dec isEnd step acc s = .panic := by
  unfold readAll
  rw [readLoop]
  simp [h]

/-! ## Where the loop can panic -/

/-- The streams the loop calls the decoder on: the file, and what is left after each frame. -/
inductive Reached (dec : Bytes → Outcome ε (α × Bytes)) : Bytes → Bytes → Prop where
  | here (s : Bytes) : Reached dec s s
  | next {s rest t : Bytes} {a : α} (h : dec s = .value (a, rest)) (ht : Reached dec rest t) :
      Reached dec s t

section

variable (hp : Progress dec)
include hp

theorem reached_end (s : Bytes) : ∃ t, Reached dec s t ∧ ∀ ar, dec t ≠ .value ar := by
  induction hn : s.length using Nat.strong_induction_on generalizing s with
  | _ n ih =>
    subst hn
    by_cases hv : ∃ ar, dec s = .value ar
    · obtain ⟨⟨a, rest⟩, hd⟩ := hv
      obtain ⟨t, ht, hend⟩ := ih rest.length (hp s a rest hd) rest rfl
      exact ⟨t, .next hd ht, hend⟩
    · exact ⟨s, .here s, fun ar hd => hv ⟨ar, hd⟩⟩

section

variable (hs : ∀ acc a, ∃ acc', step acc a = .value acc')
include hs

variable (isEnd) in
/-- At every place it reaches, the loop goes on as if it started there. -/
theorem readAll_reached {s t : Bytes} (h : Reached dec s t) (acc : σ) :
    ∃ acc', readAll dec isEnd step acc s = readAll dec isEnd step acc' t := by
  induction h generalizing acc with
  | here s => exact ⟨acc, rfl⟩
  | @next s rest t a hd _ ih =>
    obtain ⟨acc₁, hstep⟩ := hs acc a
    obtain ⟨acc₂, hrest⟩ := ih acc₁
    exact ⟨acc₂, by rw [readAll_value hp acc hd, hstep, Outcome.value_bind, hrest]⟩

/-- **The loop panics exactly where the decoder does**, given steps that always go on. -/
theorem readAll_ne_panic (acc : σ) (s : Bytes) :
    readAll dec isEnd step acc s ≠ .panic ↔ ∀ t, Reached dec s t → dec t ≠ .panic := by
  constructor
  · intro h t ht hd
    obtain ⟨acc', heq⟩ := readAll_reached isEnd hp hs ht acc
    rw [heq, readAll_panic acc' hd] at h
    exact h rfl
  · intro h
    obtain ⟨t, ht, hend⟩ := reached_end hp s
    obtain ⟨acc', heq⟩ := readAll_reached isEnd hp hs ht acc
    rw [heq]
    cases hd : dec t with
    | value ar => exact absurd hd (hend ar)
    | panic => exact absurd hd (h t ht)
    | error e =>
      cases he : isEnd e with
      | true => rw [readAll_end acc' hd he]; simp
      | false => rw [readAll_error acc' hd he]; simp

/-- **The loop returns exactly if it meets frames and then an end**, given steps that always
    go on. -/
theorem readAll_returns (acc : σ) (s : Bytes) :
    (∃ x, readAll dec isEnd step acc s = .value x) ↔ ∀ t, Reached dec s t →
      (∃ ar, dec t = .value ar) ∨ ∃ e, dec t = .error e ∧ isEnd e = true := by
  constructor
  · rintro ⟨x, hx⟩ t ht
    obtain ⟨acc', heq⟩ := readAll_reached isEnd hp hs ht acc
    rw [heq] at hx
    cases hd : dec t with
    | value ar => exact .inl ⟨ar, rfl⟩
    | panic => rw [readAll_panic acc' hd] at hx; cases hx
    | error e =>
      cases he : isEnd e with
      | true => exact .inr ⟨e, rfl, he⟩
      | false => rw [readAll_error acc' hd he] at hx; cases hx
  · intro h
    obtain ⟨t, ht, hend⟩ := reached_end hp s
    obtain ⟨acc', heq⟩ := readAll_reached isEnd hp hs ht acc
    rcases h t ht with ⟨ar, hd⟩ | ⟨e, hd, he⟩
    · exact absurd hd (hend ar)
    · exact ⟨acc', by rw [heq, readAll_end acc' hd he]⟩

end

theorem readAll_fold (f : σ → α → σ) {s : Bytes} {acc x : σ}
    (h : readAll dec isEnd (fun acc a => .value (f acc a)) acc s = .value x) :
    ∃ as : List α, x = as.foldl f acc ∧
      ∀ t a rest, Reached dec s t → dec t = .value (a, rest) → a ∈ as := by
  induction hn : s.length using Nat.strong_induction_on generalizing s acc with
  | _ n ih =>
    subst hn
    cases hd : dec s with
    | value ar =>
      obtain ⟨a, rest⟩ := ar
      rw [readAll_value hp acc hd, Outcome.value_bind] at h
      obtain ⟨as, hx, hmem⟩ := ih rest.length (hp s a rest hd) h rfl
      refine ⟨a :: as, hx, fun t b rest' ht hb => ?_⟩
      cases ht with
      | here =>
        rw [hd] at hb
        cases hb
        exact mem_cons_self
      | next hd' ht' =>
        rw [hd] at hd'
        cases hd'
        exact mem_cons_of_mem _ (hmem t b rest' ht' hb)
    | error e =>
      cases he : isEnd e with
      | true =>
        rw [readAll_end acc hd he] at h
        cases h
        refine ⟨[], rfl, fun t b rest' ht hb => ?_⟩
        cases ht with
        | here => rw [hd] at hb; cases hb
        | next hd' _ => rw [hd] at hd'; cases hd'
      | false => rw [readAll_error acc hd he] at h; cases h
    | panic => rw [readAll_panic acc hd] at h; cases h

end

/-! ## Files that are concatenations of frames -/

/-- The decoder reads every good frame back and leaves what follows it. -/
def Reads (dec : Bytes → Outcome ε (α × Bytes)) (enc : α → Bytes) (Good : α → Prop) : Prop :=
  ∀ a, Good a → ∀ rest, dec (enc a ++ rest) = .value (a, rest)

variable {enc : α → Bytes} {Good : α → Prop}

variable (isEnd step) in
/-- **Over good frames the loop is a fold over them**, followed by what it does with the tail. -/
theorem readAll_frames (hp : Progress dec) (hr : Reads dec enc Good) :
    ∀ (as : List α) (acc : σ) (tail : Bytes), (∀ a ∈ as, Good a) →
      readAll dec isEnd step acc (as.flatMap enc ++ tail) =
        as.foldlM step acc >>= fun acc' => readAll dec isEnd step acc' tail
  | [], acc, tail, _ => by simp
  | a :: as, acc, tail, hg => by
      have ha := hr a (hg a mem_cons_self) (as.flatMap enc ++ tail)
      rw [flatMap_cons, append_assoc, readAll_value hp acc ha, foldlM_cons]
      cases step acc a with
      | value acc' =>
        exact readAll_frames hp hr as acc' tail (forall_mem_cons.mp hg).2
      | error e => rfl
      | panic => rfl

end Loop

theorem foldlM_value (f : σ → α → σ) (acc : σ) (as : List α) :
    as.foldlM (fun s a => (Outcome.value (f s a) : Outcome ε σ)) acc =
      .value (as.foldl f acc) := by
  induction as generalizing acc with
  | nil => rfl
  | cons a as ih => exact ih (f acc a)

/-! ## Cutting a file -/

/-- The number of frames that lie completely in the first `c` bytes. -/
def framesBefore (enc : α → Bytes) : List α → Nat → Nat
  | [], _ => 0
  | a :: as, c =>
    if (enc a).length ≤ c then framesBefore enc as (c - (enc a).length) + 1 else 0

/-- **A file cut at any byte is its first frames and a strict prefix of the next one.** -/
theorem flatMap_take_cut (enc : α → Bytes) : ∀ (as : List α) (c : Nat),
    c ≤ (as.flatMap enc).length →
    ∃ p, (as.flatMap enc).take c = (as.take (framesBefore enc as c)).flatMap enc ++ p ∧
      (p = [] ∨ ∃ a, as[framesBefore enc as c]? = some a ∧ p <+: enc a ∧ p.length < (enc a).length)
  | [], c, _ => ⟨[], by simp, .inl rfl⟩
  | a :: as, c, hc => by
      unfold framesBefore
      by_cases h : (enc a).length ≤ c
      · have hc' : c - (enc a).length ≤ (as.flatMap enc).length := by
          rw [flatMap_cons, length_append] at hc
          omega
        obtain ⟨p, htake, hp⟩ := flatMap_take_cut enc as (c - (enc a).length) hc'
        refine ⟨p, ?_, ?_⟩
        · rw [if_pos h, flatMap_cons, take_append, take_of_length_le h, htake]
          simp
        · rw [if_pos h]
          simpa using hp
      · refine ⟨(enc a).take c, ?_, .inr ⟨a, ?_, take_prefix _ _, ?_⟩⟩
        · rw [if_neg h, flatMap_cons, take_append_of_le_length (by omega)]
          simp
        · rw [if_neg h]
          rfl
        · rw [length_take]
          omega

end Frames
