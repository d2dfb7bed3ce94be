import CowRaft.Btree.Runs

/-!
# Readers and a writer, step by step

`StorageEngine::get` and `StorageEngine::put` on a shared store, cut into the accesses that other
threads can see: a reader's `fetch_add`, its root load, each page it reads and the `fetch_sub` of
its guard; the writer's page writes, the gate's load of the reader count, the promotion, the writes
of the free-list chain and of the header, and the root store. Readers are named by a type `ι`.

Only the writer writes pages, and it holds the mutex from `begin_write` on, so that building the
new tree is one step. The rest of what a put computes goes with the access before it.

The fields `published` and `View` beyond `root` are history: no step depends on them.
-/

namespace CowRaft.Btree

open Bytes HeapTree

/-- Where the writer is, with what it still has to do. -/
inductive WriterPhase
  | idle
  | flush (newRoot : PageId) (freed : List PageId) (rest : List (PageId × Bytes))
  | gate (newRoot : PageId)
  | promote (newRoot : PageId)
  | persist (newRoot : PageId) (promoted : Bool) (rest : List (PageId × Bytes))

/-- The gate has found no reader, and the new root is not published. -/
def WriterPhase.inWindow : WriterPhase → Bool
  | promote _ => true
  | persist _ promoted _ => promoted
  | _ => false

/-- A guard's root, with the backend at that moment, the version that was published last, and
whether the writer was in the window. -/
structure View where
  root : PageId
  seen : PageIo
  version : Store
  window : Bool

/-- Where a reader is in `get`; a result is `none` after a panic. -/
inductive Reader
  | out
  | entered (key : Key)
  | reading (key : Key) (next : PageId) (view : View)
  | finished (key : Key) (result : Option (Option Val)) (view : View)

def Reader.view : Reader → Option View
  | reading _ _ view => some view
  | finished _ _ view => some view
  | _ => none

/-- The key, the result and the view of a lookup that has ended. -/
def Reader.outcome : Reader → Option (Key × Option (Option Val) × View)
  | finished key result view => some (key, result, view)
  | _ => none

theorem Reader.eq_of_outcome {r : Reader} {key : Key} {result : Option (Option Val)} {view : View}
    (h : r.outcome = some (key, result, view)) : r = .finished key result view := by
  cases r with
  | finished key' result' view' =>
    obtain ⟨rfl, heq⟩ := Prod.mk.inj (Option.some.inj h)
    obtain ⟨rfl, rfl⟩ := Prod.mk.inj heq
    rfl
  | out => cases h
  | entered key' => cases h
  | reading key' next view' => cases h

structure Concurrent (ι : Type) where
  store : Store
  phase : WriterPhase
  guards : ι → Reader
  published : Store

inductive Action (ι : Type)
  | beginPut (key : Key) (val : Val)
  | flush
  | fold
  | gate
  | promote
  | persist
  | publish
  | enterRead (i : ι) (key : Key)
  | loadRoot (i : ι)
  | readPage (i : ι)
  | dropGuard (i : ι)

/-- The body of the loop of `get`. -/
def Reader.readPage (io : PageIo) (key : Key) (next : PageId) (view : View) : Reader :=
  match Page.decode next (io.readPage next) with
  | none => .finished key none view
  | some (.leaf l) => .finished key (leafGet l key) view
  | some (.internal i) =>
    match (internalChildIndex i key).bind i.getChild with
    | none => .finished key none view
    | some child => .reading key child view

namespace Concurrent

variable {ι : Type}

/-- The shared state of a store that no one uses. -/
def init (st : Store) : Concurrent ι := ⟨st, .idle, fun _ => .out, st⟩

/-- `begin_write`, and `put` up to the commit. A rejected put leaves the store as it was. -/
def beginPut (s : Concurrent ι) (key : Key) (val : Val) : Option (Concurrent ι) :=
  match checkLimits s.store.io.pageSize key val with
  | .error _ => some s
  | .ok () => (buildPut s.store.beginWrite key val).map fun (newRoot, txn) =>
    { s with store := txn.store, phase := .flush newRoot txn.freed txn.writes }

/-- After the gate: the chain and the header are computed. -/
def startPersist (s : Concurrent ι) (newRoot : PageId) (promoted : Bool) :
    Option (Concurrent ι) := do
  let (w, chain, freeListHead, freeCount) ←
    s.store.writer.persistFreeList s.store.io.pageSize
  let header : Header := ⟨s.store.io.pageSize, newRoot, w.nextPageId, freeListHead, freeCount⟩
  let bytes ← header.toBytes s.store.io.pageSize
  some { s with
    store := { s.store with writer := w }
    phase := .persist newRoot promoted (chain ++ [(HEADER_PAGE_ID, bytes)]) }

def setWriter (s : Concurrent ι) (writer : WriterState) : Concurrent ι :=
  { s with store := { s.store with writer } }

def writePage (s : Concurrent ι) (id : PageId) (bytes : Bytes) : Concurrent ι :=
  { s with store := { s.store with io := s.store.io.writePage id bytes } }

/-- The root store. -/
def publish (s : Concurrent ι) (newRoot : PageId) : Concurrent ι :=
  { s with
    store := { s.store with root := newRoot }
    phase := .idle
    published := { s.store with root := newRoot } }

variable [DecidableEq ι]

def setGuard (s : Concurrent ι) (i : ι) (r : Reader) : Concurrent ι :=
  { s with guards := Function.update s.guards i r }

/-- One access; `none` where the thread is not at this access. -/
def step (s : Concurrent ι) : Action ι → Option (Concurrent ι)
  | .beginPut key val =>
    match s.phase with
    | .idle => s.beginPut key val
    | _ => none
  | .flush =>
    match s.phase with
    | .flush newRoot freed ((id, bytes) :: rest) =>
      some { s.writePage id bytes with phase := .flush newRoot freed rest }
    | _ => none
  | .fold =>
    match s.phase with
    | .flush newRoot freed [] =>
      some { s.setWriter (s.store.writer.foldFrees freed) with phase := .gate newRoot }
    | _ => none
  | .gate =>
    match s.phase with
    | .gate newRoot =>
      if s.store.readers = 0 then some { s with phase := .promote newRoot }
      else s.startPersist newRoot false
    | _ => none
  | .promote =>
    match s.phase with
    | .promote newRoot => (s.setWriter s.store.writer.promote).startPersist newRoot true
    | _ => none
  | .persist =>
    match s.phase with
    | .persist newRoot promoted ((id, bytes) :: rest) =>
      some { s.writePage id bytes with phase := .persist newRoot promoted rest }
    | _ => none
  | .publish =>
    match s.phase with
    | .persist newRoot _ [] => some (s.publish newRoot)
    | _ => none
  | .enterRead i key =>
    match s.guards i with
    | .out => some ({ s with store := s.store.enterRead }.setGuard i (.entered key))
    | _ => none
  | .loadRoot i =>
    match s.guards i with
    | .entered key => some (s.setGuard i (.reading key s.store.root
        ⟨s.store.root, s.store.io, s.published, s.phase.inWindow⟩))
    | _ => none
  | .readPage i =>
    match s.guards i with
    | .reading key next view => some (s.setGuard i (.readPage s.store.io key next view))
    | _ => none
  | .dropGuard i =>
    match s.guards i with
    | .finished _ _ _ => some ({ s with store := s.store.dropGuard }.setGuard i .out)
    | _ => none

/-- A sequence of accesses. -/
def run (s : Concurrent ι) : List (Action ι) → Option (Concurrent ι)
  | [] => some s
  | a :: as => (s.step a).bind fun s' => s'.run as

end Concurrent

/-- **Snapshot isolation**: every guard that has loaded its root reads back, at every page that was
reachable from it then, what it held then; and what a lookup returns is what the version with that
root, a committed one, has for its key. -/
structure Isolated {ι : Type} (pageSize : ℕ) (s : Concurrent ι) : Prop where
  pages : ∀ i view, (s.guards i).view = some view → ∀ p, Reaches (children view.seen) view.root p →
    s.store.io.readPage p = view.seen.readPage p
  version : ∀ i view, (s.guards i).view = some view →
    Reachable pageSize view.version ∧ view.version.root = view.root
  result : ∀ i key result view, s.guards i = .finished key result view →
    result = view.version.get key

/-! ## Runs that keep stale guards out -/

/-- No page of a new tree is written while a guard is held that loaded its root in the window of
an earlier commit. -/
def Calm {ι : Type} (s : Concurrent ι) : Action ι → Prop
  | .flush => ∀ i, ∀ view ∈ (s.guards i).view, view.window = false
  | _ => True

instance decidableCalm {ι : Type} [Fintype ι] (s : Concurrent ι) :
    (a : Action ι) → Decidable (Calm s a)
  | .flush => inferInstanceAs (Decidable (∀ i, ∀ view ∈ (s.guards i).view, view.window = false))
  | .beginPut _ _ | .fold | .gate | .promote | .persist | .publish | .enterRead _ _ | .loadRoot _
  | .readPage _ | .dropGuard _ => isTrue trivial

/-- Every step of the run is calm. -/
def CalmRun {ι : Type} [DecidableEq ι] (s : Concurrent ι) : List (Action ι) → Prop
  | [] => True
  | a :: as => Calm s a ∧ ∀ s' ∈ s.step a, CalmRun s' as

instance decidableCalmRun {ι : Type} [DecidableEq ι] [Fintype ι] :
    (s : Concurrent ι) → (as : List (Action ι)) → Decidable (CalmRun s as)
  | _, [] => isTrue trivial
  | s, a :: as =>
    have (s' : Concurrent ι) : Decidable (CalmRun s' as) := decidableCalmRun s' as
    inferInstanceAs (Decidable (Calm s a ∧ ∀ s' ∈ s.step a, CalmRun s' as))

end CowRaft.Btree
