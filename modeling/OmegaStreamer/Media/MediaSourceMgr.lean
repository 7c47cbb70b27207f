-- SUMMARY: The registry of streams: its keys, and when it is a map keyed by pairs of names.
import OmegaStreamer.Base.BytesReader
import OmegaStreamer.Lib.Registry

/-!
# MediaSourceMgr

The registry of `MediaSourceMgr.cpp`. Its map is keyed by the app and the stream
in one string, with a slash between them. Either name may have slashes of its own,
as both come from the client.
-/

/-- A source that the registry has created, with its `App()` and `Stream()`. The
number stands for the object. -/
structure SourceRef where
  id : Nat
  app : Bytes
  stream : Bytes
  deriving DecidableEq, Repr

abbrev MediaSourceMgr : Type := Registry Bytes SourceRef

namespace MediaSourceMgr

def makeKey (app stream : Bytes) : Bytes := app ++ [0x2F] ++ stream

def find (m : MediaSourceMgr) (app stream : Bytes) : Option SourceRef :=
  Registry.find m (makeKey app stream)

def findOrCreate (m : MediaSourceMgr) (app stream : Bytes) : SourceRef × MediaSourceMgr :=
  Registry.findOrCreate m (makeKey app stream) fun id => ⟨id, app, stream⟩

def remove (m : MediaSourceMgr) (app stream : Bytes) : MediaSourceMgr :=
  Registry.remove m (makeKey app stream)

def count (m : MediaSourceMgr) : Nat := Registry.count m

/-- A call for an app and a stream, with what it returns and `Count()` after it. -/
def call (m : MediaSourceMgr) :
    Registry.Call (Bytes × Bytes) → MediaSourceMgr × List (Registry.Answer SourceRef)
  | .find (app, stream) => (m, [⟨m.find app stream, m.count⟩])
  | .findOrCreate (app, stream) =>
    let (source, m) := m.findOrCreate app stream
    (m, [⟨some source, m.count⟩])
  | .remove (app, stream) => (m.remove app stream, [⟨none, (m.remove app stream).count⟩])

/-! ## The map of pairs -/

def newSource (id : Nat) (name : Bytes × Bytes) : SourceRef := ⟨id, name.1, name.2⟩

/-- The finite map keyed by pairs. -/
def pairCall : Registry (Bytes × Bytes) SourceRef → Registry.Call (Bytes × Bytes) →
    Registry (Bytes × Bytes) SourceRef × List (Registry.Answer SourceRef) :=
  Registry.call id newSource

/-- The key of a pair. -/
def keyOf (name : Bytes × Bytes) : Bytes := makeKey name.1 name.2

/-- The registry is the map of pairs with its names coded by `makeKey`. -/
theorem call_eq : call = Registry.call keyOf newSource := by
  funext m c
  cases c <;> rfl

/-- A source that the map of pairs has for a pair has the pair's names. -/
theorem pairCall_names (calls : List (Registry.Call (Bytes × Bytes))) {name : Bytes × Bytes}
    {source : SourceRef}
    (h : (Mealy.exec pairCall {} calls).1.find name = some source) :
    source.app = name.1 ∧ source.stream = name.2 := by
  induction calls using List.reverseRecOn with
  | nil => cases h
  | append_singleton calls c ih =>
    rw [Mealy.exec_concat] at h
    generalize (Mealy.exec pairCall {} calls).1 = m at ih h
    cases c with
    | find a => exact ih h
    | findOrCreate a =>
      cases ha : m.find a with
      | some w =>
        simp only [pairCall, Registry.call, Registry.findOrCreate, id, ha] at h
        exact ih h
      | none =>
        simp only [pairCall, Registry.call, Registry.findOrCreate, id, ha,
          Registry.find_insert] at h
        split at h
        · rename_i hname
          cases h
          rw [hname]
          exact ⟨rfl, rfl⟩
        · exact ih h
    | remove a =>
      simp only [pairCall, Registry.call, id, Registry.find_remove] at h
      split at h
      · cases h
      · exact ih h

/-- The registry answers every call as the map of pairs does if and only if no call
is made for a pair whose key is that of another live pair. -/
theorem answers_eq_iff (calls : List (Registry.Call (Bytes × Bytes))) :
    (Mealy.exec call {} calls).2 = (Mealy.exec pairCall {} calls).2 ↔
      Trace.Each (Registry.Apart keyOf) [] calls := by
  rw [call_eq]
  refine Registry.answers_coded_iff keyOf ?_ calls
  intro n n' a a' heq
  exact congrArg SourceRef.id heq

/-! ### Two pairs with one key -/

def slashInApp : Bytes × Bytes := (Bytes.ofAscii "a/b", Bytes.ofAscii "c")

def slashInStream : Bytes × Bytes := (Bytes.ofAscii "a", Bytes.ofAscii "b/c")

def crossedCalls : List (Registry.Call (Bytes × Bytes)) :=
  [.findOrCreate slashInApp, .find slashInStream, .remove slashInStream, .find slashInApp]

/-- One stream is found under the name of another, and then removed under it. -/
theorem answers_wrong :
    (Mealy.exec call {} crossedCalls).2 =
        [⟨some (newSource 0 slashInApp), 1⟩, ⟨some (newSource 0 slashInApp), 1⟩, ⟨none, 0⟩,
          ⟨none, 0⟩] ∧
      (Mealy.exec call {} crossedCalls).2 ≠ (Mealy.exec pairCall {} crossedCalls).2 := by
  decide

end MediaSourceMgr
