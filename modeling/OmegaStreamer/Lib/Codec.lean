-- SUMMARY: Resumable parsers of a language of items: what they consume is what is written of expected items, and nothing else.
import OmegaStreamer.Lib.Resumable

/-!
# Codecs

Items are written one after another, and which items may come next depends on
those that have come before. A resumable parser recognises such a language when it
reads every item that is expected, whatever follows it, and nothing else. Then what
a buffer holds is told from what was written into it: expected items, and a rest
that no expected item begins.
-/

namespace Resumable

/-- Items: how they are written, where they may come, and what reading one does. -/
structure Codec (σ ι α ω : Type) where
  encode : ι → List α
  Expects : σ → ι → Prop
  read : σ → ι → σ × List ω

namespace Codec

variable {σ ι α ω : Type} {C : Codec σ ι α ω}

/-- Each item is expected where it comes. -/
def Accepts (C : Codec σ ι α ω) : σ → List ι → Prop
  | _, [] => True
  | s, i :: is => C.Expects s i ∧ Accepts C (C.read s i).1 is

def run (C : Codec σ ι α ω) : σ → List ι → σ × List ω
  | s, [] => (s, [])
  | s, i :: is => ((run C (C.read s i).1 is).1, (C.read s i).2 ++ (run C (C.read s i).1 is).2)

def encodeAll (C : Codec σ ι α ω) (is : List ι) : List α := is.flatMap C.encode

/-- The buffer begins with no item that is expected. -/
def Stuck (C : Codec σ ι α ω) (s : σ) (buf : List α) : Prop :=
  ∀ i, C.Expects s i → ¬ C.encode i <+: buf

@[simp] theorem run_nil (s : σ) : C.run s [] = (s, []) := rfl

@[simp] theorem encodeAll_nil : C.encodeAll [] = [] := rfl

@[simp] theorem encodeAll_cons (i : ι) (is : List ι) :
    C.encodeAll (i :: is) = C.encode i ++ C.encodeAll is := List.flatMap_cons

@[simp] theorem encodeAll_append (is js : List ι) :
    C.encodeAll (is ++ js) = C.encodeAll is ++ C.encodeAll js := List.flatMap_append

theorem accepts_append {s : σ} {is js : List ι} :
    C.Accepts s (is ++ js) ↔ C.Accepts s is ∧ C.Accepts (C.run s is).1 js := by
  induction is generalizing s with
  | nil => simp [Accepts]
  | cons i is ih => simp [Accepts, run, ih, and_assoc]

theorem run_append (s : σ) (is js : List ι) :
    C.run s (is ++ js) =
      ((C.run (C.run s is).1 js).1, (C.run s is).2 ++ (C.run (C.run s is).1 js).2) := by
  induction is generalizing s with
  | nil => rfl
  | cons i is ih => simp [run, ih]

/-- What holds of the first state, and of the state behind every expected item. -/
theorem run_induction {motive : List ι → List ω → σ → Prop} {s : σ} (nil : motive [] [] s)
    (concat : ∀ is i, C.Accepts s is → C.Expects (C.run s is).1 i →
      motive is (C.run s is).2 (C.run s is).1 →
      motive (is ++ [i]) ((C.run s is).2 ++ (C.read (C.run s is).1 i).2)
        (C.read (C.run s is).1 i).1) {is : List ι} (h : C.Accepts s is) :
    motive is (C.run s is).2 (C.run s is).1 := by
  induction is using List.reverseRecOn with
  | nil => exact nil
  | append_singleton is i ih =>
    obtain ⟨his, hi, -⟩ := accepts_append.mp h
    rw [run_append]
    have hone : C.run (C.run s is).1 [i] = C.read (C.run s is).1 i := by
      rw [run, run_nil, List.append_nil]
    rw [hone]
    exact concat is i his hi (ih his)

end Codec

/-! ## Recognition -/

variable {σ ι α ω : Type}

/-- The attempt reads the items that are expected, and nothing else. -/
structure Recognises (attempt : σ → List α → Attempt σ ω) (C : Codec σ ι α ω) (limit : Nat) :
    Prop where
  /-- An expected item is read, whatever follows it. -/
  complete {s : σ} {i : ι} {rest : List α} : C.Expects s i →
    (C.encode i ++ rest).length < limit →
    attempt s (C.encode i ++ rest) = .item (C.read s i).1 (C.encode i).length (C.read s i).2
  /-- What is consumed is what is written of an expected item. -/
  sound {s s' : σ} {buf : List α} {n : Nat} {out : List ω} : buf.length < limit →
    attempt s buf = .item s' n out →
    ∃ i, C.Expects s i ∧ buf.take n = C.encode i ∧ C.read s i = (s', out)
  /-- No two items that are expected in one state are written alike. -/
  injective {s : σ} {i j : ι} : C.Expects s i → C.Expects s j → C.encode i = C.encode j → i = j

namespace Recognises

variable {attempt : σ → List α → Attempt σ ω} {C : Codec σ ι α ω} {limit : Nat} {s : σ}

/-- Expected items are read one after another. -/
theorem drain_append (h : Recognises attempt C limit) (hp : Progressive attempt) {is : List ι}
    {rest : List α} (his : C.Accepts s is) (hlen : (C.encodeAll is ++ rest).length < limit) :
    drain attempt s (C.encodeAll is ++ rest) =
      (drain attempt (C.run s is).1 rest).prepend (C.run s is).2 := by
  induction is generalizing s with
  | nil => exact (Config.prepend_nil _).symm
  | cons i is ih =>
    obtain ⟨hi, his⟩ := his
    rw [Codec.encodeAll_cons, List.append_assoc] at hlen ⊢
    have hrest : (C.encodeAll is ++ rest).length < limit := by
      rw [List.length_append] at hlen
      omega
    rw [drain_item hp (h.complete hi hlen), List.drop_left, ih his hrest,
      Config.prepend_prepend]
    rfl

/-- Expected items that arrive one in each segment are read, and nothing stays unread. -/
theorem feedAll_items (h : Recognises attempt C limit) (hp : Progressive attempt)
    {is : List ι} (his : C.Accepts s is) (hlen : ∀ i ∈ is, (C.encode i).length < limit)
    (delivered : List ω) :
    feedAll attempt ⟨s, [], delivered, false⟩ (is.map C.encode) =
      ⟨(C.run s is).1, [], delivered ++ (C.run s is).2, false⟩ := by
  induction is generalizing s delivered with
  | nil => simp
  | cons i is ih =>
    obtain ⟨hi, his⟩ := his
    have hshort : (C.encode i ++ []).length < limit := by
      rw [List.append_nil]
      exact hlen i List.mem_cons_self
    have hone := h.complete hi hshort
    rw [List.append_nil] at hone
    have hfeed := feed_item (c := ⟨s, [], delivered, false⟩) hp rfl rfl hone
    rw [List.map_cons, feedAll_cons, hfeed,
      ih his (fun j hj => hlen j (List.mem_cons_of_mem _ hj)), List.append_assoc]
    rfl

/-- An expected item at the head would have been read. -/
theorem stuck (h : Recognises attempt C limit) {buf : List α} (hlen : buf.length < limit)
    (hno : ∀ s' n out, attempt s buf ≠ .item s' n out) : C.Stuck s buf := by
  rintro i hi ⟨rest, rfl⟩
  exact hno _ _ _ (h.complete hi hlen)

/-- Nothing is read of a buffer that no expected item begins. -/
theorem drain_stuck (h : Recognises attempt C limit) {buf : List α} (hlen : buf.length < limit)
    (hstuck : C.Stuck s buf) :
    (drain attempt s buf).unread = buf ∧ (drain attempt s buf).delivered = [] := by
  by_cases hne : buf = []
  · subst hne
    exact ⟨rfl, rfl⟩
  cases hat : attempt s buf with
  | wait s' =>
    rw [drain_wait hne hat]
    exact ⟨rfl, rfl⟩
  | abort s' =>
    rw [drain_abort hne hat]
    exact ⟨rfl, rfl⟩
  | item s' n out =>
    obtain ⟨i, hi, htake, -⟩ := h.sound hlen hat
    exact absurd (htake ▸ List.take_prefix n buf) (hstuck i hi)

/-- What is drained of any buffer are items that are expected. -/
theorem exists_items (h : Recognises attempt C limit) (hp : Progressive attempt) {buf : List α}
    (hlen : buf.length < limit) :
    ∃ is, C.Accepts s is ∧ buf = C.encodeAll is ++ (drain attempt s buf).unread ∧
      (drain attempt s buf).delivered = (C.run s is).2 ∧
      C.Stuck (C.run s is).1 (drain attempt s buf).unread := by
  induction s, buf using drain_induct hp with
  | nil s =>
    refine ⟨[], trivial, rfl, rfl, h.stuck hlen fun s' n out hat => ?_⟩
    have hn := hp _ _ _ _ _ hat
    exact absurd (Nat.lt_of_lt_of_le hn.1 hn.2) (Nat.lt_irrefl 0)
  | wait s buf s' hne hat =>
    rw [drain_wait hne hat]
    exact ⟨[], trivial, rfl, rfl, h.stuck hlen fun _ _ _ heq => by cases hat.symm.trans heq⟩
  | abort s buf s' hne hat =>
    rw [drain_abort hne hat]
    exact ⟨[], trivial, rfl, rfl, h.stuck hlen fun _ _ _ heq => by cases hat.symm.trans heq⟩
  | item s buf s' n out hat hn ih =>
    obtain ⟨i, hi, htake, hnext⟩ := h.sound hlen hat
    have hshort : (buf.drop n).length < limit := by
      rw [List.length_drop]
      omega
    obtain ⟨is, his, hbuf, hdelivered, hstuck⟩ := ih hshort
    have hstate : (C.read s i).1 = s' := by rw [hnext]
    have hout : (C.read s i).2 = out := by rw [hnext]
    rw [drain_item hp hat]
    refine ⟨i :: is, ⟨hi, hstate ▸ his⟩, ?_, ?_, ?_⟩
    · rw [Codec.encodeAll_cons, List.append_assoc, Config.prepend_unread, ← hbuf, ← htake,
        List.take_append_drop]
    · rw [Config.prepend_delivered, hdelivered, Codec.run, hstate, hout]
    · rw [Codec.run, hstate, Config.prepend_unread]
      exact hstuck

/-- A buffer is drained to a rest exactly when it holds expected items, and behind them a
rest that no expected item begins. -/
theorem drain_iff (h : Recognises attempt C limit) (hp : Progressive attempt) {buf : List α}
    (hlen : buf.length < limit) {out : List ω} {rest : List α} :
    (drain attempt s buf).delivered = out ∧ (drain attempt s buf).unread = rest ↔
      ∃ is, C.Accepts s is ∧ buf = C.encodeAll is ++ rest ∧ (C.run s is).2 = out ∧
        C.Stuck (C.run s is).1 rest := by
  constructor
  · rintro ⟨rfl, rfl⟩
    obtain ⟨is, his, hbuf, hdelivered, hstuck⟩ := h.exists_items hp (s := s) hlen
    exact ⟨is, his, hbuf, hdelivered.symm, hstuck⟩
  · rintro ⟨is, his, rfl, rfl, hstuck⟩
    have hrest : rest.length < limit := by
      rw [List.length_append] at hlen
      omega
    obtain ⟨hunread, hdelivered⟩ := h.drain_stuck hrest hstuck
    rw [h.drain_append hp his hlen, Config.prepend_delivered, Config.prepend_unread, hunread,
      hdelivered, List.append_nil]
    exact ⟨rfl, rfl⟩

/-- One string cannot be cut into expected items in two ways. -/
theorem unambiguous (h : Recognises attempt C limit) {is js : List ι} {rest rest' : List α}
    (his : C.Accepts s is) (hjs : C.Accepts s js) (hstuck : C.Stuck (C.run s is).1 rest)
    (hstuck' : C.Stuck (C.run s js).1 rest')
    (heq : C.encodeAll is ++ rest = C.encodeAll js ++ rest')
    (hlen : (C.encodeAll is ++ rest).length < limit) : is = js ∧ rest = rest' := by
  induction is generalizing s js with
  | nil =>
    cases js with
    | nil => exact ⟨rfl, heq⟩
    | cons j js =>
      rw [Codec.encodeAll_nil, List.nil_append, Codec.encodeAll_cons, List.append_assoc] at heq
      exact absurd ⟨_, heq.symm⟩ (hstuck j hjs.1)
  | cons i is ih =>
    cases js with
    | nil =>
      rw [Codec.encodeAll_nil, List.nil_append, Codec.encodeAll_cons, List.append_assoc] at heq
      exact absurd ⟨_, heq⟩ (hstuck' i his.1)
    | cons j js =>
      rw [Codec.encodeAll_cons, Codec.encodeAll_cons, List.append_assoc, List.append_assoc] at heq
      rw [Codec.encodeAll_cons, List.append_assoc] at hlen
      -- both items are read of the one string, so they have one length
      have hreadi := h.complete his.1 hlen
      have hreadj := h.complete hjs.1 (heq ▸ hlen)
      rw [heq, hreadj] at hreadi
      injection hreadi with hstate hlength hout
      obtain ⟨hencode, hrest⟩ := List.append_inj heq hlength.symm
      obtain rfl := h.injective his.1 hjs.1 hencode
      have hshort : (C.encodeAll is ++ rest).length < limit := by
        rw [List.length_append] at hlen
        omega
      obtain ⟨rfl, rfl⟩ := ih his.2 hjs.2 hstuck hstuck' hrest hshort
      exact ⟨rfl, rfl⟩

end Recognises

end Resumable
