-- SUMMARY: Resumable stream parsers: the driver loop, and why the cutting of the input into segments does not matter.
import OmegaStreamer.Lib.Mealy
import OmegaStreamer.Lib.Trace
import Mathlib.Data.List.Basic
import Mathlib.Data.List.Induction
import Mathlib.Tactic.Common

/-!
# Resumable stream parsers

A parser that reads items from the head of a growing buffer. One `Attempt`
either consumes an item, or finds it incomplete, or ends the run. An attempt
that finds its item incomplete may already have changed the state: it is made
again on the same item when more symbols have arrived. `Lawful` says when such
half-done attempts are harmless. The laws are only asked for buffers shorter
than a `limit`, and for states that satisfy an invariant.

The result is `feedAll_congr`: two ways of cutting the same input into segments
lead to the same configuration. `readAll` is the one that the input alone decides.
-/

namespace Resumable

variable {σ α ω : Type}

/-- What one attempt at the head of the buffer did. -/
inductive Attempt (σ ω : Type) where
  /-- The item at the head is incomplete. -/
  | wait (s : σ)
  /-- An item of `n` symbols was consumed and `out` was delivered. -/
  | item (s : σ) (n : Nat) (out : List ω)
  /-- The run ends here. -/
  | abort (s : σ)

/-- The configuration of a run: the state, the input not yet consumed, all that
was delivered, and whether the run has ended. -/
@[ext] structure Config (σ α ω : Type) where
  state : σ
  unread : List α := []
  delivered : List ω := []
  aborted : Bool := false

namespace Config

/-- The configuration with `out` delivered before everything else. -/
def prepend (out : List ω) (c : Config σ α ω) : Config σ α ω :=
  { c with delivered := out ++ c.delivered }

@[simp] theorem prepend_state (out : List ω) (c : Config σ α ω) :
    (c.prepend out).state = c.state := rfl
@[simp] theorem prepend_unread (out : List ω) (c : Config σ α ω) :
    (c.prepend out).unread = c.unread := rfl
@[simp] theorem prepend_delivered (out : List ω) (c : Config σ α ω) :
    (c.prepend out).delivered = out ++ c.delivered := rfl
@[simp] theorem prepend_aborted (out : List ω) (c : Config σ α ω) :
    (c.prepend out).aborted = c.aborted := rfl

@[simp] theorem prepend_nil (c : Config σ α ω) : c.prepend [] = c := by
  simp [prepend]

theorem prepend_prepend (out out' : List ω) (c : Config σ α ω) :
    (c.prepend out').prepend out = c.prepend (out ++ out') := by
  simp [prepend]

end Config

/-! ## The driver loop -/

/-- Attempt items at the head of the buffer until one is incomplete, the run
ends, or the buffer is empty. Every item consumes a symbol, so the length of
the buffer is fuel enough (`drainFuel_eq`). -/
def drainFuel (attempt : σ → List α → Attempt σ ω) : Nat → σ → List α → Config σ α ω
  | 0, s, buf => ⟨s, buf, [], false⟩
  | _ + 1, s, [] => ⟨s, [], [], false⟩
  | fuel + 1, s, a :: buf =>
    match attempt s (a :: buf) with
    | .wait s' => ⟨s', a :: buf, [], false⟩
    | .abort s' => ⟨s', a :: buf, [], true⟩
    | .item s' n out => (drainFuel attempt fuel s' ((a :: buf).drop n)).prepend out

/-- Consume every complete item of the buffer. -/
def drain (attempt : σ → List α → Attempt σ ω) (s : σ) (buf : List α) : Config σ α ω :=
  drainFuel attempt buf.length s buf

/-- A segment arrives: it is appended to the buffer, which is then drained. When
the run has ended nothing is parsed any more and the segment stays unread. -/
def feed (attempt : σ → List α → Attempt σ ω) (c : Config σ α ω) (seg : List α) :
    Config σ α ω :=
  if c.aborted then { c with unread := c.unread ++ seg }
  else (drain attempt c.state (c.unread ++ seg)).prepend c.delivered

/-- The segments arrive one after another. -/
def feedAll (attempt : σ → List α → Attempt σ ω) (c : Config σ α ω) (segs : List (List α)) :
    Config σ α ω :=
  segs.foldl (feed attempt) c

variable {attempt : σ → List α → Attempt σ ω}

@[simp] theorem feedAll_nil (c : Config σ α ω) : feedAll attempt c [] = c := rfl

@[simp] theorem feedAll_cons (c : Config σ α ω) (seg : List α) (segs : List (List α)) :
    feedAll attempt c (seg :: segs) = feedAll attempt (feed attempt c seg) segs := rfl

theorem feedAll_append (c : Config σ α ω) (segs segs' : List (List α)) :
    feedAll attempt c (segs ++ segs') = feedAll attempt (feedAll attempt c segs) segs' :=
  List.foldl_append

theorem feed_aborted {c : Config σ α ω} (h : c.aborted = true) (seg : List α) :
    feed attempt c seg = { c with unread := c.unread ++ seg } := by
  simp [feed, h]

theorem feed_running {c : Config σ α ω} (h : c.aborted = false) (seg : List α) :
    feed attempt c seg = (drain attempt c.state (c.unread ++ seg)).prepend c.delivered := by
  simp [feed, h]

/-- Every item is made of at least one symbol of the buffer. -/
def Progressive (attempt : σ → List α → Attempt σ ω) : Prop :=
  ∀ (s s' : σ) (buf : List α) (n : Nat) (out : List ω),
    attempt s buf = .item s' n out → 0 < n ∧ n ≤ buf.length

/-- Any two fuels that cover the buffer drain it alike. -/
theorem drainFuel_congr (hp : Progressive attempt) {n m : Nat} {s : σ} {buf : List α}
    (hn : buf.length ≤ n) (hm : buf.length ≤ m) :
    drainFuel attempt n s buf = drainFuel attempt m s buf := by
  induction n generalizing m s buf with
  | zero =>
    obtain rfl : buf = [] := List.eq_nil_of_length_eq_zero (by omega)
    cases m <;> rfl
  | succ n ih =>
    cases buf with
    | nil => cases m <;> rfl
    | cons a buf =>
      cases m with
      | zero => simp at hm
      | succ m =>
        simp only [List.length_cons] at hn hm
        unfold drainFuel
        cases hat : attempt s (a :: buf) with
        | wait s' => rfl
        | abort s' => rfl
        | item s' k out =>
          have hk := hp _ _ _ _ _ hat
          have hdrop : ((a :: buf).drop k).length ≤ buf.length := by
            simp only [List.length_drop, List.length_cons]; omega
          have hrest : drainFuel attempt n s' ((a :: buf).drop k) =
              drainFuel attempt m s' ((a :: buf).drop k) := ih (by omega) (by omega)
          simp only [hrest]

@[simp] theorem drain_nil (s : σ) : drain attempt s [] = ⟨s, [], [], false⟩ := rfl

/-! ### One turn of the loop -/

theorem drain_wait {s s' : σ} {buf : List α} (hne : buf ≠ [])
    (h : attempt s buf = .wait s') : drain attempt s buf = ⟨s', buf, [], false⟩ := by
  cases buf with
  | nil => exact absurd rfl hne
  | cons a buf => simp [drain, drainFuel, h]

theorem drain_abort {s s' : σ} {buf : List α} (hne : buf ≠ [])
    (h : attempt s buf = .abort s') : drain attempt s buf = ⟨s', buf, [], true⟩ := by
  cases buf with
  | nil => exact absurd rfl hne
  | cons a buf => simp [drain, drainFuel, h]

theorem drain_item (hp : Progressive attempt) {s s' : σ} {buf : List α} {n : Nat}
    {out : List ω} (h : attempt s buf = .item s' n out) :
    drain attempt s buf = (drain attempt s' (buf.drop n)).prepend out := by
  have hn := hp _ _ _ _ _ h
  cases buf with
  | nil => simp only [List.length_nil] at hn; omega
  | cons a buf =>
    have hdrop : ((a :: buf).drop n).length ≤ buf.length := by
      simp only [List.length_drop, List.length_cons] at hn ⊢; omega
    simp only [drain, drainFuel, List.length_cons, h]
    rw [drainFuel_congr hp hdrop (Nat.le_refl _)]

/-- Induction along the turns of the loop: the buffer is empty, or its head is waited
on or ends the run, or an item is taken and the loop goes on behind it. -/
theorem drain_induct (hp : Progressive attempt) {motive : σ → List α → Prop}
    (nil : ∀ s, motive s [])
    (wait : ∀ s buf s', buf ≠ [] → attempt s buf = .wait s' → motive s buf)
    (abort : ∀ s buf s', buf ≠ [] → attempt s buf = .abort s' → motive s buf)
    (item : ∀ s buf s' n out, attempt s buf = .item s' n out → n ≤ buf.length →
      motive s' (buf.drop n) → motive s buf) (s : σ) (buf : List α) : motive s buf := by
  induction hn : buf.length using Nat.strongRecOn generalizing s buf with
  | ind n ih =>
    subst hn
    by_cases hne : buf = []
    · rw [hne]
      exact nil s
    · cases hat : attempt s buf with
      | wait s' => exact wait s buf s' hne hat
      | abort s' => exact abort s buf s' hne hat
      | item s' k out =>
        have hk := hp _ _ _ _ _ hat
        have hdrop : (buf.drop k).length < buf.length := by
          rw [List.length_drop]
          omega
        exact item s buf s' k out hat hk.2 (ih _ hdrop s' _ rfl)

/-- What a drain leaves unread is the end of the buffer. -/
theorem drain_unread_suffix (hp : Progressive attempt) (s : σ) (buf : List α) :
    (drain attempt s buf).unread <:+ buf := by
  induction s, buf using drain_induct hp with
  | nil s => exact List.suffix_refl _
  | wait s buf s' hne hat => simp only [drain_wait hne hat, List.suffix_refl]
  | abort s buf s' hne hat => simp only [drain_abort hne hat, List.suffix_refl]
  | item s buf s' n out hat hn ih =>
    rw [drain_item hp hat, Config.prepend_unread]
    exact ih.trans (List.drop_suffix n buf)

/-! ### A segment that is one item -/

/-- A segment that is exactly the next item is consumed whole. -/
theorem feed_item (hp : Progressive attempt) {c : Config σ α ω} {seg : List α} {s' : σ}
    {out : List ω} (hrun : c.aborted = false) (hu : c.unread = [])
    (h : attempt c.state seg = .item s' seg.length out) :
    feed attempt c seg = ⟨s', [], c.delivered ++ out, false⟩ := by
  rw [feed_running hrun, hu, List.nil_append, drain_item hp h, List.drop_length, drain_nil,
    Config.prepend_prepend]
  simp [Config.prepend]

/-- A segment that is an incomplete item stays unread. -/
theorem feed_wait {c : Config σ α ω} {seg : List α} {s' : σ} (hne : seg ≠ [])
    (hrun : c.aborted = false) (hu : c.unread = []) (h : attempt c.state seg = .wait s') :
    feed attempt c seg = ⟨s', seg, c.delivered, false⟩ := by
  rw [feed_running hrun, hu, List.nil_append, drain_wait hne h]
  simp [Config.prepend]

/-! ## The attempts of a run -/

/-- The states and buffers an attempt is made on while a buffer is drained. -/
def attemptsFuel (attempt : σ → List α → Attempt σ ω) : Nat → σ → List α → List (σ × List α)
  | 0, _, _ => []
  | _ + 1, _, [] => []
  | fuel + 1, s, a :: buf =>
    (s, a :: buf) ::
      match attempt s (a :: buf) with
      | .item s' n _ => attemptsFuel attempt fuel s' ((a :: buf).drop n)
      | _ => []

/-- The states and buffers an attempt is made on while the segments arrive. -/
def attempts (attempt : σ → List α → Attempt σ ω) :
    Config σ α ω → List (List α) → List (σ × List α)
  | _, [] => []
  | c, seg :: segs =>
    (if c.aborted then []
      else attemptsFuel attempt (c.unread ++ seg).length c.state (c.unread ++ seg)) ++
    attempts attempt (feed attempt c seg) segs

private theorem drainFuel_aborted_iff (fuel : Nat) (s : σ) (buf : List α) :
    (drainFuel attempt fuel s buf).aborted = true ↔
      ∃ v ∈ attemptsFuel attempt fuel s buf, ∃ s', attempt v.1 v.2 = .abort s' := by
  induction fuel generalizing s buf with
  | zero => simp [drainFuel, attemptsFuel]
  | succ fuel ih =>
    cases buf with
    | nil => simp [drainFuel, attemptsFuel]
    | cons a buf =>
      cases hat : attempt s (a :: buf) with
      | wait s' => simp [drainFuel, attemptsFuel, hat]
      | abort s' => simp [drainFuel, attemptsFuel, hat]
      | item s' n out => simp [drainFuel, attemptsFuel, hat, ih]

/-- A run ends exactly when one of its attempts does. -/
theorem feedAll_aborted_iff {c : Config σ α ω} {segs : List (List α)}
    (hc : c.aborted = false) :
    (feedAll attempt c segs).aborted = true ↔
      ∃ v ∈ attempts attempt c segs, ∃ s', attempt v.1 v.2 = .abort s' := by
  have hstop : ∀ (c : Config σ α ω) (segs : List (List α)), c.aborted = true →
      (feedAll attempt c segs).aborted = true := by
    intro c segs h
    induction segs generalizing c with
    | nil => exact h
    | cons seg segs ih => exact ih _ (by rw [feed_aborted h]; exact h)
  induction segs generalizing c with
  | nil => simp [attempts, hc]
  | cons seg segs ih =>
    have hfeed : feed attempt c seg = _ := feed_running hc seg
    have hiff : (drain attempt c.state (c.unread ++ seg)).aborted = true ↔ _ :=
      drainFuel_aborted_iff (c.unread ++ seg).length c.state (c.unread ++ seg)
    simp only [feedAll_cons, attempts, hc, List.mem_append]
    cases hab : (feed attempt c seg).aborted with
    | true =>
      have hdrain : (drain attempt c.state (c.unread ++ seg)).aborted = true := by
        rw [hfeed] at hab; exact hab
      obtain ⟨v, hv, hs⟩ := hiff.mp hdrain
      exact ⟨fun _ => ⟨v, .inl (by simpa using hv), hs⟩, fun _ => hstop _ _ hab⟩
    | false =>
      have hdrain : ¬ (drain attempt c.state (c.unread ++ seg)).aborted = true := by
        rw [hfeed] at hab; simp at hab; simp [hab]
      refine (ih hab).trans ⟨?_, ?_⟩
      · rintro ⟨v, hv, hs⟩
        exact ⟨v, .inr hv, hs⟩
      · rintro ⟨v, hv | hv, hs⟩
        · exact absurd (hiff.mpr ⟨v, by simpa using hv, hs⟩) hdrain
        · exact ⟨v, hv, hs⟩

/-! ### A history of the attempts -/

/-- What an attempt delivers. -/
def Attempt.delivered : Attempt σ ω → List ω
  | .item _ _ out => out
  | _ => []

/-- The state after an attempt. -/
def Attempt.state : Attempt σ ω → σ
  | .wait s => s
  | .item s _ _ => s
  | .abort s => s

/-- What every attempt preserves, however it ends, is preserved by every segment. -/
theorem state_feedAll (hp : Progressive attempt) {P : σ → Prop}
    (hstep : ∀ s buf, P s → P (attempt s buf).state) {c : Config σ α ω} (hc : P c.state)
    (segs : List (List α)) : P (feedAll attempt c segs).state := by
  have hdrain (s : σ) (buf : List α) (hs : P s) : P (drain attempt s buf).state := by
    induction s, buf using drain_induct hp with
    | nil s => exact hs
    | wait s buf s' hne hat =>
      rw [drain_wait hne hat]
      have hnext := hstep s buf hs
      rw [hat] at hnext
      exact hnext
    | abort s buf s' hne hat =>
      rw [drain_abort hne hat]
      have hnext := hstep s buf hs
      rw [hat] at hnext
      exact hnext
    | item s buf s' n out hat hn ih =>
      rw [drain_item hp hat]
      have hnext := hstep s buf hs
      rw [hat] at hnext
      exact ih hnext
  induction segs generalizing c with
  | nil => exact hc
  | cons seg segs ih =>
    apply ih
    cases hab : c.aborted with
    | true =>
      rw [feed_aborted hab]
      exact hc
    | false =>
      rw [feed_running hab]
      exact hdrain _ _ hc

section History

variable {γ : Type} {I : List γ → σ → Prop} {label : σ × List α → γ}

/-- Each attempt leaves its label in a history. What relates the history to the
state, and is preserved by every item, is there whenever an attempt is made. -/
theorem each_attemptsFuel {P : List γ → γ → Prop}
    (hP : ∀ {before : List γ} {s : σ} {buf : List α}, I before s → P before (label (s, buf)))
    (hitem : ∀ {before : List γ} {s s' : σ} {buf : List α} {n : Nat} {out : List ω},
      I before s → attempt s buf = .item s' n out → I (before ++ [label (s, buf)]) s')
    {before : List γ} {fuel : Nat} {s : σ} {buf : List α} (hs : I before s) :
    Trace.Each P before ((attemptsFuel attempt fuel s buf).map label) := by
  induction fuel generalizing before s buf with
  | zero => trivial
  | succ fuel ih =>
    cases buf with
    | nil => trivial
    | cons a buf =>
      refine ⟨hP hs, ?_⟩
      cases hat : attempt s (a :: buf) with
      | wait s' => trivial
      | abort s' => trivial
      | item s' n out => exact ih (hitem hs hat)

/-- It is there at the end as well, unless the run has ended. -/
theorem history_drainFuel
    (hitem : ∀ {before : List γ} {s s' : σ} {buf : List α} {n : Nat} {out : List ω},
      I before s → attempt s buf = .item s' n out → I (before ++ [label (s, buf)]) s')
    (hwait : ∀ {before : List γ} {s s' : σ} {buf : List α},
      I before s → attempt s buf = .wait s' → I (before ++ [label (s, buf)]) s')
    {before : List γ} {fuel : Nat} {s : σ} {buf : List α} (hs : I before s)
    (hrun : (drainFuel attempt fuel s buf).aborted = false) :
    I (before ++ (attemptsFuel attempt fuel s buf).map label)
      (drainFuel attempt fuel s buf).state := by
  induction fuel generalizing before s buf with
  | zero => simpa [attemptsFuel, drainFuel] using hs
  | succ fuel ih =>
    cases buf with
    | nil => simpa [attemptsFuel, drainFuel] using hs
    | cons a buf =>
      cases hat : attempt s (a :: buf) with
      | wait s' => simpa [attemptsFuel, drainFuel, hat] using hwait hs hat
      | abort s' => simp [drainFuel, hat] at hrun
      | item s' n out =>
        simp only [drainFuel, hat, Config.prepend_aborted] at hrun
        have hrest := ih (hitem hs hat) hrun
        simpa [attemptsFuel, drainFuel, hat] using hrest

end History

/-! ## The laws -/

/-- What makes half-done attempts harmless, for states that satisfy `Inv` and
buffers shorter than `limit`: a complete item, or the end of the run, is found
whatever follows it, and an attempt on an incomplete item leaves a state from
which the next attempt does what it would have done without the first. -/
structure Lawful (attempt : σ → List α → Attempt σ ω) (Inv : σ → Prop) (limit : Nat) :
    Prop where
  progressive : Progressive attempt
  item_append {s s' : σ} {buf more : List α} {n : Nat} {out : List ω} :
    Inv s → (buf ++ more).length < limit →
    attempt s buf = .item s' n out → attempt s (buf ++ more) = .item s' n out
  abort_append {s s' : σ} {buf more : List α} :
    Inv s → (buf ++ more).length < limit →
    attempt s buf = .abort s' → attempt s (buf ++ more) = .abort s'
  resume {s s' : σ} {buf more : List α} :
    Inv s → (buf ++ more).length < limit →
    attempt s buf = .wait s' → attempt s' (buf ++ more) = attempt s (buf ++ more)
  inv_item {s s' : σ} {buf : List α} {n : Nat} {out : List ω} :
    Inv s → attempt s buf = .item s' n out → Inv s'
  inv_wait {s s' : σ} {buf : List α} : Inv s → attempt s buf = .wait s' → Inv s'

namespace Lawful

variable {Inv : σ → Prop} {limit : Nat}

/-- A buffer whose attempt resumes drains the same from the state the first
attempt left. -/
private theorem drain_congr (hl : Lawful attempt Inv limit) {s s' : σ} {buf : List α}
    (hne : buf ≠ []) (h : attempt s' buf = attempt s buf) :
    drain attempt s' buf = drain attempt s buf := by
  cases hat : attempt s buf with
  | wait t => rw [drain_wait hne hat, drain_wait hne (h.trans hat)]
  | abort t => rw [drain_abort hne hat, drain_abort hne (h.trans hat)]
  | item t n out =>
    rw [drain_item hl.progressive hat, drain_item hl.progressive (h.trans hat)]

/-- Draining a longer buffer is draining its front and then letting the rest
arrive. The induction is along the turns on the front: each item found there is
found in the whole buffer as well. -/
theorem drain_append (hl : Lawful attempt Inv limit) {s : σ} {buf more : List α}
    (hs : Inv s) (hlen : (buf ++ more).length < limit) :
    drain attempt s (buf ++ more) = feed attempt (drain attempt s buf) more := by
  induction s, buf using drain_induct hl.progressive with
  | nil s => simp [feed, Config.prepend]
  | wait s buf s' hne hat =>
    have hne' : buf ++ more ≠ [] := by simp [hne]
    rw [drain_wait hne hat, feed_running rfl]
    simpa using (hl.drain_congr hne' (hl.resume hs hlen hat)).symm
  | abort s buf s' hne hat =>
    have hne' : buf ++ more ≠ [] := by simp [hne]
    rw [drain_abort hne hat, drain_abort hne' (hl.abort_append hs hlen hat), feed_aborted rfl]
  | item s buf s' n out hat hn ih =>
    have hdrop : (buf ++ more).drop n = buf.drop n ++ more := List.drop_append_of_le_length hn
    have hshort : (buf.drop n ++ more).length < limit := by
      simp only [List.length_append, List.length_drop] at hlen ⊢; omega
    rw [drain_item hl.progressive hat,
      drain_item hl.progressive (hl.item_append hs hlen hat), hdrop,
      ih (hl.inv_item hs hat) hshort]
    by_cases hab : (drain attempt s' (buf.drop n)).aborted = true
    · rw [feed_aborted hab, feed_aborted (by simpa using hab)]
      rfl
    · simp only [Bool.not_eq_true] at hab
      rw [feed_running hab, feed_running (by simpa using hab), Config.prepend_prepend]
      rfl

theorem inv_drain (hl : Lawful attempt Inv limit) {s : σ} {buf : List α} (hs : Inv s) :
    (drain attempt s buf).aborted = false → Inv (drain attempt s buf).state := by
  intro hab
  induction s, buf using drain_induct hl.progressive with
  | nil s => exact hs
  | wait s buf s' hne hat =>
    rw [drain_wait hne hat]
    exact hl.inv_wait hs hat
  | abort s buf s' hne hat =>
    rw [drain_abort hne hat] at hab
    cases hab
  | item s buf s' n out hat hn ih =>
    rw [drain_item hl.progressive hat] at hab ⊢
    exact ih (hl.inv_item hs hat) hab

theorem inv_feed (hl : Lawful attempt Inv limit) {c : Config σ α ω} {seg : List α}
    (hc : c.aborted = false → Inv c.state) :
    (feed attempt c seg).aborted = false → Inv (feed attempt c seg).state := by
  cases hab : c.aborted with
  | true => rw [feed_aborted hab]; intro h; exact hc h
  | false => rw [feed_running hab]; exact hl.inv_drain (hc hab)

theorem inv_attempts (hl : Lawful attempt Inv limit) {c : Config σ α ω}
    {segs : List (List α)} (hc : c.aborted = false → Inv c.state) :
    ∀ v ∈ attempts attempt c segs, Inv v.1 := by
  have hdrain : ∀ (fuel : Nat) (s : σ) (buf : List α), Inv s →
      ∀ v ∈ attemptsFuel attempt fuel s buf, Inv v.1 := by
    intro fuel
    induction fuel with
    | zero => intro s buf _ v hv; cases hv
    | succ fuel ih =>
      intro s buf hs v hv
      cases buf with
      | nil => cases hv
      | cons a buf =>
        simp only [attemptsFuel, List.mem_cons] at hv
        rcases hv with rfl | hv
        · exact hs
        · cases hat : attempt s (a :: buf) with
          | wait s' => simp [hat] at hv
          | abort s' => simp [hat] at hv
          | item s' n out =>
            simp only [hat] at hv
            exact ih s' _ (hl.inv_item hs hat) v hv
  induction segs generalizing c with
  | nil => intro v hv; cases hv
  | cons seg segs ih =>
    intro v hv
    simp only [attempts, List.mem_append] at hv
    rcases hv with hv | hv
    · cases hab : c.aborted with
      | true => simp [hab] at hv
      | false =>
        simp only [hab] at hv
        exact hdrain _ _ _ (hc hab) v (by simpa using hv)
    · exact ih (hl.inv_feed hc) v hv

/-! ## Independence of the segmentation -/

/-- A segment in two parts arrives as a whole or one part after the other. -/
theorem feed_append (hl : Lawful attempt Inv limit) {c : Config σ α ω} {seg seg' : List α}
    (hc : c.aborted = false → Inv c.state)
    (hlen : c.aborted = false → (c.unread ++ (seg ++ seg')).length < limit) :
    feed attempt c (seg ++ seg') = feed attempt (feed attempt c seg) seg' := by
  cases hab : c.aborted with
  | true => simp [feed, hab]
  | false =>
    have hdrain : drain attempt c.state (c.unread ++ seg ++ seg') =
        feed attempt (drain attempt c.state (c.unread ++ seg)) seg' :=
      hl.drain_append (hc hab) (by simpa using hlen hab)
    rw [feed_running hab, feed_running hab, ← List.append_assoc, hdrain]
    cases hr : (drain attempt c.state (c.unread ++ seg)).aborted with
    | true => rw [feed_aborted hr, feed_aborted (by simpa using hr)]; rfl
    | false =>
      rw [feed_running hr, feed_running (by simpa using hr), Config.prepend_prepend]
      rfl

/-- The buffer stays below the limit while the segments arrive. -/
def Fits (attempt : σ → List α → Attempt σ ω) (limit : Nat) :
    Config σ α ω → List (List α) → Prop
  | _, [] => True
  | c, seg :: segs =>
    (c.aborted = false → (c.unread ++ seg).length < limit) ∧
      Fits attempt limit (feed attempt c seg) segs

/-- Nothing is left to do on the unread input. -/
def Quiet (attempt : σ → List α → Attempt σ ω) (c : Config σ α ω) : Prop :=
  feed attempt c [] = c

theorem quiet_feed (hl : Lawful attempt Inv limit) {c : Config σ α ω} {seg : List α}
    (hc : c.aborted = false → Inv c.state)
    (hlen : c.aborted = false → (c.unread ++ seg).length < limit) :
    Quiet attempt (feed attempt c seg) := by
  have h : feed attempt c (seg ++ []) = feed attempt (feed attempt c seg) [] :=
    hl.feed_append hc (by simpa using hlen)
  rw [List.append_nil] at h
  exact h.symm

/-- A segment arrives as a whole or symbol by symbol. -/
private theorem feed_eq_singletons (hl : Lawful attempt Inv limit) {c : Config σ α ω}
    {seg : List α} (hq : Quiet attempt c) (hc : c.aborted = false → Inv c.state)
    (hlen : c.aborted = false → (c.unread ++ seg).length < limit) :
    feed attempt c seg = feedAll attempt c (seg.map fun a => [a]) := by
  induction seg using List.reverseRecOn with
  | nil => exact hq
  | append_singleton seg a ih =>
    have hlen' : c.aborted = false → (c.unread ++ seg).length < limit := by
      intro hab
      have := hlen hab
      simp only [List.length_append, List.length_cons, List.length_nil] at this ⊢
      omega
    rw [hl.feed_append hc hlen, ih hlen', List.map_append, feedAll_append]
    rfl

/-- Segments that fit arrive as they are cut or symbol by symbol. -/
theorem feedAll_eq_singletons (hl : Lawful attempt Inv limit) {c : Config σ α ω}
    {segs : List (List α)} (hq : Quiet attempt c) (hc : c.aborted = false → Inv c.state)
    (hfit : Fits attempt limit c segs) :
    feedAll attempt c segs = feedAll attempt c (segs.flatten.map fun a => [a]) := by
  induction segs generalizing c with
  | nil => rfl
  | cons seg segs ih =>
    rw [List.flatten_cons, List.map_append, feedAll_append,
      ← hl.feed_eq_singletons hq hc hfit.1]
    exact ih (hl.quiet_feed hc hfit.1) (hl.inv_feed hc) hfit.2

/-- Two ways of cutting the same input lead to the same configuration. -/
theorem feedAll_congr (hl : Lawful attempt Inv limit) {c : Config σ α ω}
    {segs segs' : List (List α)} (hq : Quiet attempt c)
    (hc : c.aborted = false → Inv c.state) (hfit : Fits attempt limit c segs)
    (hfit' : Fits attempt limit c segs') (h : segs.flatten = segs'.flatten) :
    feedAll attempt c segs = feedAll attempt c segs' := by
  rw [hl.feedAll_eq_singletons hq hc hfit, hl.feedAll_eq_singletons hq hc hfit', h]

/-! ## Input that fits -/

/-- Segments whose total length stays below the limit fit, however they are
cut. -/
theorem fits_of_total (hp : Progressive attempt) {c : Config σ α ω} {segs : List (List α)}
    (h : (c.unread ++ segs.flatten).length < limit) : Fits attempt limit c segs := by
  induction segs generalizing c with
  | nil => trivial
  | cons seg segs ih =>
    simp only [List.flatten_cons, List.length_append] at h
    refine ⟨fun _ => by simp only [List.length_append]; omega, ih ?_⟩
    have hle : (feed attempt c seg).unread.length ≤ (c.unread ++ seg).length := by
      cases hab : c.aborted with
      | true => exact Nat.le_of_eq (by rw [feed_aborted hab])
      | false => rw [feed_running hab]; exact (drain_unread_suffix hp _ _).length_le
    simp only [List.length_append] at hle ⊢
    omega

/-- What is left after a drain is empty or starts with an incomplete item. -/
theorem drain_unread (hl : Lawful attempt Inv limit) {P : List α → Prop} (hnil : P [])
    (hwait : ∀ s s' buf, Inv s → buf.length < limit → attempt s buf = .wait s' → P buf)
    {s : σ} {buf : List α} (hs : Inv s) (hlen : buf.length < limit) :
    (drain attempt s buf).aborted = false → P (drain attempt s buf).unread := by
  intro hab
  induction s, buf using drain_induct hl.progressive with
  | nil s => exact hnil
  | wait s buf s' hne hat =>
    rw [drain_wait hne hat]
    exact hwait _ _ _ hs hlen hat
  | abort s buf s' hne hat =>
    rw [drain_abort hne hat] at hab
    cases hab
  | item s buf s' n out hat hn ih =>
    rw [drain_item hl.progressive hat] at hab ⊢
    refine ih (hl.inv_item hs hat) ?_ hab
    rw [List.length_drop]
    omega

/-- Where an attempt only waits on fewer than `m` symbols, segments that leave
room for these below the limit always fit. -/
theorem fits_of_short (hl : Lawful attempt Inv limit) {m : Nat} (hm : 0 < m)
    (hwait : ∀ s s' buf, Inv s → buf.length < limit → attempt s buf = .wait s' →
      buf.length < m)
    {c : Config σ α ω} {segs : List (List α)} (hc : c.aborted = false → Inv c.state)
    (hu : c.aborted = false → c.unread.length < m)
    (hsegs : ∀ seg ∈ segs, seg.length + m ≤ limit) : Fits attempt limit c segs := by
  induction segs generalizing c with
  | nil => trivial
  | cons seg segs ih =>
    have hseg := hsegs seg (by simp)
    have hfit : c.aborted = false → (c.unread ++ seg).length < limit := by
      intro hab
      have := hu hab
      simp only [List.length_append]; omega
    refine ⟨hfit, ih (hl.inv_feed hc) ?_ (fun s hs => hsegs s (by simp [hs]))⟩
    cases hab : c.aborted with
    | true => rw [feed_aborted hab]; intro h; simp [hab] at h
    | false =>
      rw [feed_running hab]
      exact hl.drain_unread (P := fun b => b.length < m) (by simpa using hm) hwait
        (hc hab) (hfit hab)

end Lawful

/-! ## What the input alone decides -/

/-- The input, symbol by symbol. -/
def readAll (attempt : σ → List α → Attempt σ ω) (s : σ) (input : List α) : Config σ α ω :=
  feedAll attempt { state := s } (input.map fun a => [a])

@[simp] theorem readAll_nil (s : σ) : readAll attempt s [] = { state := s } := rfl

theorem readAll_concat (s : σ) (input : List α) (a : α) :
    readAll attempt s (input ++ [a]) = feed attempt (readAll attempt s input) [a] := by
  rw [readAll, List.map_append, feedAll_append]
  rfl

/-- An attempt waits only on fewer than `m` symbols, and there is room for one more
below the limit. -/
structure Short (attempt : σ → List α → Attempt σ ω) (Inv : σ → Prop) (limit m : Nat) :
    Prop where
  pos : 0 < m
  lt_limit : m < limit
  of_wait {s s' : σ} {buf : List α} :
    Inv s → buf.length < limit → attempt s buf = .wait s' → buf.length < m

namespace Lawful

variable {Inv : σ → Prop} {limit m : Nat}

/-- Between two segments the parser is quiet, and little is unread. -/
structure Resting (attempt : σ → List α → Attempt σ ω) (Inv : σ → Prop) (m : Nat)
    (c : Config σ α ω) : Prop where
  quiet : Quiet attempt c
  inv : c.aborted = false → Inv c.state
  unread : c.aborted = false → c.unread.length < m

theorem resting_init (hshort : Short attempt Inv limit m) {s : σ} (hs : Inv s) :
    Resting attempt Inv m { state := s } where
  quiet := by simp [Quiet, feed, Config.prepend]
  inv _ := hs
  unread _ := hshort.pos

theorem Resting.feed (hl : Lawful attempt Inv limit) (hshort : Short attempt Inv limit m)
    {c : Config σ α ω} (hc : Resting attempt Inv m c) {seg : List α}
    (hlen : c.aborted = false → (c.unread ++ seg).length < limit) :
    Resting attempt Inv m (feed attempt c seg) where
  quiet := hl.quiet_feed hc.inv hlen
  inv := hl.inv_feed hc.inv
  unread := by
    cases hab : c.aborted with
    | true =>
      rw [feed_aborted hab]
      intro h
      rw [hab] at h
      cases h
    | false =>
      rw [feed_running hab]
      exact hl.drain_unread (P := fun b => b.length < m) hshort.pos
        (fun s s' buf => hshort.of_wait) (hc.inv hab) (hlen hab)

theorem resting_readAll (hl : Lawful attempt Inv limit) (hshort : Short attempt Inv limit m)
    {s : σ} (hs : Inv s) (input : List α) : Resting attempt Inv m (readAll attempt s input) := by
  induction input using List.reverseRecOn with
  | nil => exact resting_init hshort hs
  | append_singleton input a ih =>
    rw [readAll_concat]
    refine ih.feed hl hshort fun hab => ?_
    have hunread := ih.unread hab
    have hroom := hshort.lt_limit
    rw [List.length_append, List.length_singleton]
    omega

/-- A segment that fits is read as its symbols are. -/
theorem feed_readAll (hl : Lawful attempt Inv limit) (hshort : Short attempt Inv limit m)
    {s : σ} (hs : Inv s) {input seg : List α}
    (hlen : (readAll attempt s input).aborted = false →
      ((readAll attempt s input).unread ++ seg).length < limit) :
    feed attempt (readAll attempt s input) seg = readAll attempt s (input ++ seg) := by
  have hrest := hl.resting_readAll hshort hs input
  have hone : feedAll attempt (readAll attempt s input) [seg] = _ :=
    hl.feedAll_eq_singletons hrest.quiet hrest.inv ⟨hlen, trivial⟩
  rw [feedAll_cons, feedAll_nil, List.flatten_singleton] at hone
  rw [hone, readAll, readAll, List.map_append, feedAll_append]

end Lawful

/-! ## Parsers with a handler -/

section Handling

variable {τ ε : Type}

/-- A parser whose output is handled at once. The handler's state may decide what the
next attempt does. -/
def handling (attempt : τ → σ → List α → Attempt σ ω) (handle : τ → ω → τ × List ε)
    (p : σ × τ) (buf : List α) : Attempt (σ × τ) ε :=
  match attempt p.2 p.1 buf with
  | .wait s => .wait (s, p.2)
  | .abort s => .abort (s, p.2)
  | .item s n out =>
    .item (s, (Mealy.exec handle p.2 out).1) n (Mealy.exec handle p.2 out).2

/-- The configuration after the output of another one has been handled. -/
def Config.handled (handle : τ → ω → τ × List ε) (t : τ) (c : Config σ α ω) :
    Config (σ × τ) α ε where
  state := (c.state, (Mealy.exec handle t c.delivered).1)
  unread := c.unread
  delivered := (Mealy.exec handle t c.delivered).2
  aborted := c.aborted

theorem Config.handled_prepend (handle : τ → ω → τ × List ε) (t : τ) (out : List ω)
    (c : Config σ α ω) :
    (c.prepend out).handled handle t =
      (c.handled handle (Mealy.exec handle t out).1).prepend (Mealy.exec handle t out).2 := by
  simp only [Config.handled, Config.prepend, Mealy.exec_append]

theorem handling_progressive {attempt' : τ → σ → List α → Attempt σ ω}
    {handle : τ → ω → τ × List ε} (hp : ∀ t, Progressive (attempt' t)) :
    Progressive (handling attempt' handle) := by
  intro p p' buf n out h
  unfold handling at h
  cases hat : attempt' p.2 p.1 buf with
  | wait s' => rw [hat] at h; cases h
  | abort s' => rw [hat] at h; cases h
  | item s' k out' =>
    rw [hat] at h
    cases h
    exact hp _ _ _ _ _ _ hat

/-- Where the handler's state decides nothing, the output can as well be handled when
the buffer has been drained. -/
theorem drain_handling {attempt' : τ → σ → List α → Attempt σ ω}
    {handle : τ → ω → τ × List ε} (hp : Progressive attempt)
    (hsame : ∀ t, attempt' t = attempt) (s : σ) (t : τ) (buf : List α) :
    drain (handling attempt' handle) (s, t) buf = (drain attempt s buf).handled handle t := by
  have hp' : Progressive (handling attempt' handle) :=
    handling_progressive fun t => hsame t ▸ hp
  induction s, buf using drain_induct hp generalizing t with
  | nil s => rfl
  | wait s buf s' hne hat =>
    have hat' : handling attempt' handle (s, t) buf = .wait (s', t) := by
      simp only [handling, hsame, hat]
    rw [drain_wait hne hat, drain_wait hne hat']
    rfl
  | abort s buf s' hne hat =>
    have hat' : handling attempt' handle (s, t) buf = .abort (s', t) := by
      simp only [handling, hsame, hat]
    rw [drain_abort hne hat, drain_abort hne hat']
    rfl
  | item s buf s' n out hat hn ih =>
    have hat' : handling attempt' handle (s, t) buf =
        .item (s', (Mealy.exec handle t out).1) n (Mealy.exec handle t out).2 := by
      simp only [handling, hsame, hat]
    rw [drain_item hp hat, drain_item hp' hat', ih, Config.handled_prepend]

end Handling

end Resumable
