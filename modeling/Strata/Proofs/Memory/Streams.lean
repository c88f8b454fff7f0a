/-
# `Strata.Proofs.Memory.Streams` — open streams on a tree that changes

A stream is opened on the file at a path, and from then on it has the path only.  While
it is open the tree goes its own way: entries are added, created, deleted and moved, and
other streams write.  What a stream commits goes to the file that is at its path at
that moment; if there is none, the commit is refused.

So no stream can change the shape of the tree, whatever happened before
(`streams_keep_shape`): it writes into one file, and a file that is gone stays gone.
After a flush that had something to save and succeeded, the file holds what the stream
holds.
-/
import Strata.Proofs.Buffer.Commits
import Strata.Proofs.Memory.Runs

namespace Strata.Memory

open Strata.Action Strata.Buffer

/-! ## Streams on a filesystem -/

/-- A stream that was opened on the file at a path, the bytes that it started from, and what
happened on it since. -/
structure OpenStream where
  path : String
  writable : Bool
  data : Bytes
  buffer : Buffer
  past : List Event

/-- A filesystem with the streams that are open on it. -/
structure Session where
  memory : Memory
  streams : List OpenStream

namespace OpenStream

/-- A stream that was just opened. -/
def new (path : String) (b : Buffer) : OpenStream := ⟨path, b.writable, b.contents, b, []⟩

/-- A call on the stream; its commits go to the file at its path. -/
def serve (now : Timestamp) (st : OpenStream) (r : Request) :
    StateM Memory (Event × OpenStream) := do
  let (e, b) ← st.buffer.serve (commit now st.path) r
  return (e, { st with buffer := b, past := st.past ++ [e] })

/-- The drop of the stream. -/
def finish (now : Timestamp) (st : OpenStream) : StateM Memory (List Commit) :=
  st.buffer.finish (commit now st.path)

/-- The buffer is where its calls have brought it. -/
def Tracks (st : OpenStream) : Prop := Buffer.Tracks st.writable st.data st.past st.buffer

end OpenStream

namespace Session

/-- A step of a session: the tree is changed, a stream is opened, or one of the open streams is
called or dropped. -/
inductive Step where
  | change (c : Change)
  | openStream (path : String) (mode : OpenMode)
  | serve (i : Nat) (r : Request)
  | finish (i : Nat)

/-- The step is made by a stream. -/
def Step.OfStream : Step → Prop
  | .change _ | .openStream _ _ => False
  | .serve _ _ | .finish _ => True

/-- The session after a step. -/
def after (now : Timestamp) (s : Session) : Step → Session
  | .change c => { s with memory := c.after now s.memory }
  | .openStream path mode =>
    match (openBuffer now path mode).exec s.memory with
    | (.ok b, m) => ⟨m, s.streams ++ [.new path b]⟩
    | (.error _, m) => { s with memory := m }
  | .serve i r =>
    match s.streams[i]? with
    | some st =>
      let ((_, st), m) := (st.serve now r).run s.memory
      ⟨m, s.streams.set i st⟩
    | none => s
  | .finish i =>
    match s.streams[i]? with
    | some st => ⟨((st.finish now).run s.memory).2, s.streams.eraseIdx i⟩
    | none => s

/-- The session after steps, one after the other, each at its time. -/
def run (steps : List (Timestamp × Step)) (s : Session) : Session :=
  steps.foldl (fun s x => s.after x.1 x.2) s

end Session

/-- The second filesystem differs from the first one in the data and the time of the file at the
path, if in anything. -/
structure Written (path : String) (m m' : Memory) : Prop where
  name : m'.name = m.name
  operations : m'.operations = m.operations
  others : ∀ q, q ≠ path → m'.tree.find? q = m.tree.find? q
  shape : ∀ q, m'.kind q = m.kind q
  absent : m.kind path ≠ .file → m' = m

variable {m m' : Memory} {path : String} {st : OpenStream} {s : Session}

theorem Written.refl (path : String) (m : Memory) : Written path m m :=
  ⟨rfl, rfl, fun _ _ => rfl, fun _ => rfl, fun _ => rfl⟩

theorem written_commit (now : Timestamp) (m : Memory) (path : String) (data : Bytes) :
    Written path m ((commit now path data).run m).2 := by
  obtain ⟨-, he⟩ | ⟨old, mtime, hf, he⟩ := commit_cases m now path data
  · rw [he]
    exact .refl path m
  · rw [he]
    refine ⟨rfl, rfl, fun q hq => ?_, Tree.kind_put_file hf data now, fun hno => ?_⟩
    · exact (Tree.find?_put _ _ _ _).trans (if_neg hq)
    · exact absurd (kind_of_file hf) hno

/-- What touches the world by a commit at most writes into a file at most. -/
theorem Written.of_touched {now : Timestamp} {b : Buffer} {commits : List Commit}
    (h : Touched (commit now path) b m m' commits) : Written path m m' := by
  obtain ⟨-, hm⟩ | ⟨-, -, hm⟩ := h
  · rw [hm]
    exact .refl path m
  · rw [hm]
    exact written_commit now m path b.contents

/-! ## Opening -/

/-- A buffer that is handed out is new: nothing was read and nothing was written. -/
theorem new_of_openBuffer {now : Timestamp} {mode : OpenMode} {b : Buffer}
    (h : ((openBuffer now path mode).exec m).1 = .ok b) :
    b = if b.writable then writer b.contents else reader b.contents := by
  rw [openBuffer] at h
  simp only [exec_bind, exec_get, exec_ofExcept] at h
  rcases hcheck : mode.checkAgainst m.operations path with e | _
  · rw [hcheck] at h
    cases h
  rw [hcheck] at h
  by_cases hmap : mode.mapped = true
  · simp only [if_pos hmap, exec_bind, exec_throw] at h
    cases h
  simp only [if_neg hmap] at h
  rcases hf : m.tree.find? path with _ | mtime | ⟨data, mtime⟩
  · rw [hf] at h
    cases h
  · rw [hf] at h
    cases h
  · rw [hf] at h
    simp only [exec_ite, exec_bind, exec_set, exec_pure] at h
    split at h
    · obtain rfl := Except.ok.inj h
      rfl
    · split at h
      · obtain rfl := Except.ok.inj h
        rfl
      · obtain rfl := Except.ok.inj h
        rfl

/-- Opening a file for reading gives its data and changes nothing. -/
theorem exec_openBuffer_reading (hops : m.operations.covers (.only .read) = true) {data : Bytes}
    {mtime : Timestamp} (hf : m.tree.find? path = some (.file data mtime)) (now : Timestamp) :
    (openBuffer now path .reading).exec m = (.ok (.reader data), m) := by
  have hcheck : OpenMode.reading.checkAgainst m.operations path = .ok (.only .read) := if_pos hops
  rw [openBuffer]
  simp only [exec_bind, exec_get, exec_ofExcept, hcheck, hf]
  rfl

theorem tracks_of_openBuffer {now : Timestamp} {mode : OpenMode} {b : Buffer}
    (h : ((openBuffer now path mode).exec m).1 = .ok b) : (OpenStream.new path b).Tracks := by
  have htracks := tracks_new b.writable b.contents
  rwa [← new_of_openBuffer h] at htracks

/-! ## Calls on streams -/

theorem OpenStream.run_serve {now : Timestamp} {r : Request} {e : Event} {b : Buffer}
    (h : (st.buffer.serve (commit now st.path) r).run m = ((e, b), m')) :
    (st.serve now r).run m = ((e, { st with buffer := b, past := st.past ++ [e] }), m') := by
  rw [serve, StateT.run_bind, h]
  rfl

/-- A call leaves the buffer where its calls have brought it, and writes into one file at most. -/
theorem OpenStream.Tracks.serve (h : st.Tracks) (now : Timestamp) (r : Request) (m : Memory) :
    ((st.serve now r).run m).1.2.Tracks ∧ Written st.path m ((st.serve now r).run m).2 := by
  obtain ⟨e, b, m', hrun, -, -, htracks, htouched⟩ :=
    Buffer.Tracks.serve (commit now st.path) h r m
  rw [OpenStream.run_serve hrun]
  exact ⟨htracks, .of_touched htouched⟩

theorem OpenStream.Tracks.finish (h : st.Tracks) (now : Timestamp) (m : Memory) :
    Written st.path m ((st.finish now).run m).2 := by
  obtain ⟨commits, m', hrun, -, htouched⟩ := Buffer.Tracks.finish (commit now st.path) h m
  rw [OpenStream.finish, hrun]
  exact .of_touched htouched

/-- A flush with something to save is one commit of what the stream holds. -/
theorem OpenStream.Tracks.flush (h : st.Tracks) (hunsaved : Unsaved st.past) (now : Timestamp)
    (m : Memory) :
    let served := (st.serve now .flush).run m
    let committed := (commit now st.path served.1.2.buffer.contents).run m
    served.1.1.answer = .done committed.1 ∧ served.2 = committed.2 := by
  obtain ⟨e, b, m', hrun, hr, hlaw, htracks, htouched⟩ :=
    Buffer.Tracks.serve (commit now st.path) h .flush m
  have hcontents : b.contents = st.buffer.contents := by
    have hplays : st.buffer.Plays (tapeAfter st.writable st.data st.past) := h.plays
    rw [htracks.plays.contents, tapeAfter_snoc, hr, hplays.contents]
    rfl
  obtain ⟨result, hcommits⟩ := hlaw.commits.once ⟨hr, hunsaved⟩
  obtain ⟨hnone, -⟩ | ⟨-, hone, hm⟩ := htouched
  · rw [hnone] at hcommits
    cases hcommits
  · have hanswer := hlaw.answer
    rw [hr, hone] at hanswer
    rw [OpenStream.run_serve hrun]
    show e.answer = .done ((commit now st.path b.contents).run m).1 ∧
      m' = ((commit now st.path b.contents).run m).2
    rw [hcontents]
    exact ⟨hanswer, hm⟩

/-- Every open stream is where its calls have brought it. -/
def Session.Sound (s : Session) : Prop := ∀ st ∈ s.streams, st.Tracks

/-- A step keeps the streams sound, and if a stream makes it, the tree keeps its shape. -/
theorem Session.Sound.after (h : s.Sound) (now : Timestamp) (x : Step) :
    (s.after now x).Sound ∧
      (x.OfStream → ∀ q, (s.after now x).memory.kind q = s.memory.kind q) := by
  cases x with
  | change c => exact ⟨h, False.elim⟩
  | openStream path mode =>
      refine ⟨?_, False.elim⟩
      rw [Session.after]
      rcases hopen : (openBuffer now path mode).exec s.memory with ⟨e | b, m⟩
      · exact h
      · intro st hst
        rcases List.mem_append.mp hst with hst | hst
        · exact h st hst
        · obtain rfl := List.mem_singleton.mp hst
          exact tracks_of_openBuffer (congrArg Prod.fst hopen)
  | serve i r =>
      rw [Session.after]
      cases hi : s.streams[i]? with
      | none => exact ⟨h, fun _ _ => rfl⟩
      | some st =>
          obtain ⟨htracks, hwritten⟩ :=
            (h st (List.mem_of_getElem? hi)).serve now r s.memory
          refine ⟨?_, fun _ => hwritten.shape⟩
          intro st' hst
          rcases List.mem_or_eq_of_mem_set hst with hst | rfl
          · exact h st' hst
          · exact htracks
  | finish i =>
      rw [Session.after]
      cases hi : s.streams[i]? with
      | none => exact ⟨h, fun _ _ => rfl⟩
      | some st =>
          have hwritten := (h st (List.mem_of_getElem? hi)).finish now s.memory
          refine ⟨?_, fun _ => hwritten.shape⟩
          exact fun st' hst => h st' (List.mem_of_mem_eraseIdx hst)

/-! ## Sessions -/

/-- What steps keep, one after the other. -/
theorem Session.Sound.run (h : s.Sound) (steps : List (Timestamp × Session.Step)) :
    (Session.run steps s).Sound ∧
      ((∀ x ∈ steps, x.2.OfStream) →
        ∀ q, (Session.run steps s).memory.kind q = s.memory.kind q) := by
  induction steps generalizing s with
  | nil => exact ⟨h, fun _ _ => rfl⟩
  | cons x steps ih =>
      obtain ⟨hsound, hshape⟩ := h.after x.1 x.2
      obtain ⟨hrest, hrestShape⟩ := ih hsound
      refine ⟨hrest, fun hall q => ?_⟩
      obtain ⟨hx, hall⟩ := List.forall_mem_cons.mp hall
      exact (hrestShape hall q).trans (hshape hx q)

/-- However a filesystem and streams on it were used together: a call on one of the streams, or its
drop, writes into the file at the path of the stream at most, and does nothing if no file is there;
steps of streams alone leave every path what it is.  A flush with something to save is refused as
not found, without any change, if there is no file at the path; and if it succeeds, opening the
path for reading gives what the stream holds. -/
theorem streams_keep_shape (m : Memory) (steps : List (Timestamp × Session.Step)) :
    let s := Session.run steps ⟨m, []⟩
    (∀ st ∈ s.streams, ∀ now,
      Written st.path s.memory ((st.finish now).run s.memory).2 ∧
      (∀ r, Written st.path s.memory ((st.serve now r).run s.memory).2) ∧
      (Unsaved st.past →
        let flushed := (st.serve now .flush).run s.memory
        (s.memory.kind st.path ≠ .file →
          flushed.1.1.answer
              = .done (.error (.stated .notFound s!"file vanished before commit: {st.path}")) ∧
            flushed.2 = s.memory) ∧
        (flushed.1.1.answer = .done (.ok ()) →
          s.memory.operations.covers (.only .read) = true → ∀ later,
            (openBuffer later st.path .reading).exec flushed.2
              = (.ok (.reader flushed.1.2.buffer.contents), flushed.2)))) ∧
    (∀ more, (∀ x ∈ more, x.2.OfStream) →
      ∀ q, (Session.run more s).memory.kind q = s.memory.kind q) := by
  intro s
  have hnew : Session.Sound ⟨m, []⟩ := List.forall_mem_nil _
  have hsound : s.Sound := (hnew.run steps).1
  refine ⟨?_, fun more hmore => (hsound.run more).2 hmore⟩
  intro st hst now
  have htracks := hsound st hst
  refine ⟨htracks.finish now s.memory, fun r => (htracks.serve now r s.memory).2, ?_⟩
  intro hunsaved flushed
  obtain ⟨hanswer, hmemory⟩ := htracks.flush hunsaved now s.memory
  obtain ⟨hno, he⟩ | ⟨old, mtime, hf, he⟩ :=
    commit_cases s.memory now st.path flushed.1.2.buffer.contents
  · rw [he] at hanswer hmemory
    refine ⟨fun _ => ⟨hanswer, hmemory⟩, fun hok => ?_⟩
    rw [hanswer] at hok
    cases hok
  · rw [he] at hmemory
    refine ⟨fun hno => absurd (kind_of_file hf) hno, fun _ hread later => ?_⟩
    have hnow : flushed.2.tree.find? st.path
        = some (.file flushed.1.2.buffer.contents now) := by
      rw [hmemory]
      exact (Tree.find?_put _ _ _ _).trans (if_pos rfl)
    exact exec_openBuffer_reading (hmemory ▸ hread) hnow later

/-- A filesystem with one file. -/
def oneFile : Memory := { tree := ⟨⟨[("", .directory .epoch), ("a", .file [1] .epoch)]⟩⟩ }

theorem streams_keep_shape_deleted :
    let steps : List (Timestamp × Session.Step) :=
      [(.epoch, .openStream "a" { read := true, write := true }), (.epoch, .serve 0 (.write [7])),
        (.epoch, .change (.delete "" "a"))]
    let s := Session.run (steps.take 2) ⟨oneFile, []⟩
    let deleted := Session.run steps ⟨oneFile, []⟩
    (∃ st ∈ s.streams, let flushed := (st.serve .epoch .flush).run s.memory
      (openBuffer .epoch "a" .reading).exec flushed.2 = (.ok (.reader [7]), flushed.2)) ∧
    ∃ st ∈ deleted.streams, ((st.serve .epoch .flush).run deleted.memory).2 = deleted.memory := by
  intro steps s deleted
  obtain ⟨hs, -⟩ := streams_keep_shape oneFile (steps.take 2)
  obtain ⟨hdeleted, -⟩ := streams_keep_shape oneFile steps
  let st : OpenStream := ⟨"a", true, [1], ⟨[7], 1, true, true⟩, [⟨.write [7], .number (.ok 1), []⟩]⟩
  have hunsaved : Unsaved st.past := ⟨[], _, [], rfl, ⟨[7], 1, rfl, rfl⟩, List.forall_mem_nil _⟩
  have hst : s.streams = [st] := rfl
  have hst' : deleted.streams = [st] := rfl
  refine ⟨⟨st, ?_, ?_⟩, st, ?_, ?_⟩
  · rw [hst]
    exact List.mem_singleton.mpr rfl
  · exact ((hs st (by rw [hst]; exact List.mem_singleton.mpr rfl) .epoch).2.2 hunsaved).2 rfl rfl _
  · rw [hst']
    exact List.mem_singleton.mpr rfl
  · exact (((hdeleted st (by rw [hst']; exact List.mem_singleton.mpr rfl) .epoch).2.2 hunsaved).1
      (by decide +kernel)).2

end Strata.Memory
