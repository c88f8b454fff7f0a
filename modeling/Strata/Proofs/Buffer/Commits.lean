/-
# `Strata.Proofs.Buffer.Commits` — when a stream hands its contents back

A stream is read, written, moved and flushed call by call, and at its end it is
dropped.  Its commits go to a callback that may do anything in its own world and may
refuse any of its calls.  The history of the stream says what each call answered and
what was committed on the way.

`Unsaved` is said of a history alone: a write was carried out, and no commit has
succeeded since.  The buffer keeps one bit for it, and that bit is right (`Tracks`).
So a flush commits the whole contents if something is unsaved and nothing otherwise,
the drop does the same, and all other calls commit nothing
(`commits_what_is_unsaved`).
-/
import Strata.Proofs.Buffer.Tape

namespace Strata

namespace Buffer

/-! ## Histories -/

/-- A call on a stream. -/
inductive Request where
  | read (n : Nat)
  | write (data : Bytes)
  | seek (goal : SeekTarget)
  | flush
  deriving DecidableEq

/-- What a call on a stream answers. -/
inductive Answer where
  | bytes (data : Bytes)
  | number (result : Except IoError Nat)
  | done (result : Except IoError Unit)

/-- One call of the callback: what it was given, and what it answered. -/
structure Commit where
  data : Bytes
  result : Except IoError Unit

/-- A call on a stream, with its answer and the commits that it made. -/
structure Event where
  request : Request
  answer : Answer
  commits : List Commit

/-- What happened to a stream: the calls on it, and then the commits of its drop. -/
structure History where
  events : List Event
  last : List Commit

section
variable {σ : Type} (commit : Bytes → StateM σ (Except IoError Unit))

/-- The callback, with its calls noted down beside its world. -/
def noted (data : Bytes) : StateM (σ × List Commit) (Except IoError Unit) := fun s =>
  let (result, world) := (commit data).run s.1
  (result, (world, s.2 ++ [⟨data, result⟩]))

/-- Carries out a call on a stream. -/
def serve (b : Buffer) : Request → StateM σ (Event × Buffer)
  | .read n => return (⟨.read n, .bytes (b.read n).1, []⟩, (b.read n).2)
  | .write data => return (⟨.write data, .number (b.write data).1, []⟩, (b.write data).2)
  | .seek goal => return (⟨.seek goal, .number (b.seek goal).1, []⟩, (b.seek goal).2)
  | .flush => fun s =>
    let ((result, b), (world, commits)) := (b.flush (noted commit)).run (s, [])
    ((⟨.flush, .done result, commits⟩, b), world)

/-- Drops a stream; answers with the commits that this made. -/
def finish (b : Buffer) : StateM σ (List Commit) := fun s =>
  let ((), (world, commits)) := (b.close (noted commit)).run (s, [])
  (commits, world)

/-- Carries out calls on a stream, one after the other, and then drops it. -/
def history (b : Buffer) : List Request → StateM σ History
  | [] => return ⟨[], ← finish commit b⟩
  | r :: rs => do
    let (e, b) ← serve commit b r
    let h ← history b rs
    return ⟨e :: h.events, h.last⟩

end

/-! ## What a stream owes -/

/-- The answer of the callback, if it was called. -/
def outcome : List Commit → Except IoError Unit
  | [] => .ok ()
  | c :: _ => c.result

end Buffer

namespace Tape

open Buffer

/-- What a call on a stream answers where a tape holds the bytes and these commits were made. -/
def answer (t : Tape) (writable : Bool) (commits : List Commit) : Request → Answer
  | .read n => .bytes (t.slice t.position (t.available n))
  | .write data => .number (if writable then .ok data.length else .error readOnly)
  | .seek goal => .number ((t.place? goal).elim (.error badSeek) .ok)
  | .flush => .done (outcome commits)

/-- The tape after a call. -/
def after (writable : Bool) (t : Tape) : Request → Tape
  | .read n => t.moveTo (t.position + t.available n)
  | .write data => if writable then t.write data else t
  | .seek goal => t.moveTo ((t.place? goal).getD t.position)
  | .flush => t

end Tape

namespace Buffer

/-- The tape of these bytes after what happened. -/
def tapeAfter (writable : Bool) (data : Bytes) (past : List Event) : Tape :=
  (past.map (·.request)).foldl (Tape.after writable) (.ofBytes data)

/-- The call was a write, and it was carried out. -/
def Event.Wrote (e : Event) : Prop :=
  ∃ data n, e.request = .write data ∧ e.answer = .number (.ok n)

/-- A commit succeeded. -/
def Event.Saved (e : Event) : Prop := ∃ c ∈ e.commits, c.result = .ok ()

/-- A write was carried out, and no commit has succeeded since. -/
def Unsaved (past : List Event) : Prop :=
  ∃ before e after, past = before ++ e :: after ∧ e.Wrote ∧ ∀ x ∈ after, ¬ x.Saved

/-- One commit of these contents was made if it was due, and none otherwise. -/
structure CommitsWhen (due : Prop) (contents : Bytes) (commits : List Commit) : Prop where
  once : due → ∃ result, commits = [⟨contents, result⟩]
  never : ¬ due → commits = []

/-- After what happened to a stream over these bytes, a call is answered as the tape answers it,
and commits the tape's bytes if it is a flush and something is unsaved. -/
structure Lawful (writable : Bool) (data : Bytes) (past : List Event) (e : Event) : Prop where
  answer : e.answer = (tapeAfter writable data past).answer writable e.commits e.request
  commits : CommitsWhen (e.request = .flush ∧ Unsaved past) (tapeAfter writable data past).bytes
    e.commits

variable {writable : Bool} {data : Bytes} {past : List Event} {e : Event} {b : Buffer}

/-! ## What is unsaved -/

theorem tapeAfter_snoc (writable : Bool) (data : Bytes) (past : List Event) (e : Event) :
    tapeAfter writable data (past ++ [e])
      = (tapeAfter writable data past).after writable e.request := by
  simp [tapeAfter]

theorem not_unsaved_nil : ¬ Unsaved [] := by
  rintro ⟨before, e, after, he, -⟩
  simp at he

theorem Unsaved.append (h : Unsaved past) {more : List Event} (hmore : ∀ x ∈ more, ¬ x.Saved) :
    Unsaved (past ++ more) := by
  obtain ⟨before, e, after, rfl, hw, hafter⟩ := h
  refine ⟨before, e, after ++ more, by simp, hw, ?_⟩
  intro x hx
  exact (List.mem_append.mp hx).elim (hafter x) (hmore x)

/-- One more event: a write leaves something unsaved, and what was unsaved stays so unless it is
committed now. -/
theorem unsaved_snoc : Unsaved (past ++ [e]) ↔ e.Wrote ∨ Unsaved past ∧ ¬ e.Saved := by
  constructor
  · rintro ⟨before, w, after, heq, hw, hafter⟩
    rcases List.eq_nil_or_concat' after with rfl | ⟨after, x, rfl⟩
    · obtain ⟨-, rfl⟩ := List.append_singleton_inj.mp heq
      exact .inl hw
    · rw [← List.cons_append, ← List.append_assoc] at heq
      obtain ⟨rfl, rfl⟩ := List.append_singleton_inj.mp heq
      exact .inr ⟨⟨before, w, after, rfl, hw, fun y hy => hafter y (by simp [hy])⟩,
        hafter e (by simp)⟩
  · rintro (hw | ⟨h, hs⟩)
    · exact ⟨past, e, [], rfl, hw, by simp⟩
    · exact h.append (by simpa using hs)

/-- A call that is no flush commits nothing. -/
theorem Lawful.not_saved (h : Lawful writable data past e) (hr : e.request ≠ .flush) :
    ¬ e.Saved := by
  rintro ⟨c, hc, -⟩
  rw [h.commits.never fun hd => hr hd.1] at hc
  cases hc

/-! ## One call -/

/-- The buffer stands where the tape stands after what happened, and its mark says whether
something is unsaved. -/
structure Tracks (writable : Bool) (data : Bytes) (past : List Event) (b : Buffer) : Prop where
  plays : b.Plays (tapeAfter writable data past)
  writable : b.writable = writable
  dirty : b.dirty = true ↔ Unsaved past

theorem tracks_new (writable : Bool) (data : Bytes) :
    Tracks writable data [] (if writable then writer data else reader data) := by
  have hplays : ∀ b : Buffer, b.contents = data → b.position = 0 →
      b.Plays (tapeAfter writable data []) := by
    intro b hc hp
    exact ⟨by rw [hc]; exact (Tape.bytes_ofBytes data).symm, hp⟩
  cases writable with
  | false => exact ⟨hplays _ rfl rfl, rfl, by simp [reader, not_unsaved_nil]⟩
  | true => exact ⟨hplays _ rfl rfl, rfl, by simp [writer, not_unsaved_nil]⟩

section
variable {σ : Type} (commit : Bytes → StateM σ (Except IoError Unit))

/-- The world is as it was if nothing was committed, and else as one commit of the contents left
it. -/
def Touched (b : Buffer) (s s' : σ) (commits : List Commit) : Prop :=
  (commits = [] ∧ s' = s) ∨
    (b.dirty = true ∧ commits = [⟨b.contents, ((commit b.contents).run s).1⟩] ∧
      s' = ((commit b.contents).run s).2)

/-- A flush commits the contents if the buffer is marked; the mark goes if that succeeds. -/
theorem flush_cases (b : Buffer) (s : σ) :
    (b.dirty = false ∧ (b.flush commit).run s = ((.ok (), b), s)) ∨
    (b.dirty = true ∧ ∃ s', (commit b.contents).run s = (.ok (), s') ∧
      (b.flush commit).run s = ((.ok (), { b with dirty := false }), s')) ∨
    (b.dirty = true ∧ ∃ error s', (commit b.contents).run s = (.error error, s') ∧
      (b.flush commit).run s = ((.error error, b), s')) := by
  cases hd : b.dirty with
  | false =>
      rw [flush, hd]
      exact .inl ⟨rfl, rfl⟩
  | true =>
      rw [flush, if_pos hd, StateT.run_bind]
      rcases (commit b.contents).run s with ⟨error | _, s'⟩
      · exact .inr (.inr ⟨rfl, error, s', rfl, rfl⟩)
      · exact .inr (.inl ⟨rfl, s', rfl, rfl⟩)

theorem run_noted {s s' : σ} {result : Except IoError Unit}
    (h : (commit data).run s = (result, s')) :
    (noted commit data).run (s, []) = (result, (s', [⟨data, result⟩])) := by
  show noted commit data (s, []) = _
  rw [noted, h]
  rfl

/-- What a flush does, with its calls of the callback. -/
theorem flush_noted_cases (b : Buffer) (s : σ) :
    (b.dirty = false ∧ (b.flush (noted commit)).run (s, []) = ((.ok (), b), (s, []))) ∨
    (b.dirty = true ∧ ∃ s', (commit b.contents).run s = (.ok (), s') ∧
      (b.flush (noted commit)).run (s, [])
        = ((.ok (), { b with dirty := false }), (s', [⟨b.contents, .ok ()⟩]))) ∨
    (b.dirty = true ∧ ∃ error s', (commit b.contents).run s = (.error error, s') ∧
      (b.flush (noted commit)).run (s, [])
        = ((.error error, b), (s', [⟨b.contents, .error error⟩]))) := by
  rcases hc : (commit b.contents).run s with ⟨result, s'⟩
  have hn := run_noted commit hc
  obtain ⟨hd, hf⟩ | ⟨hd, w, hw, hf⟩ | ⟨hd, error, w, hw, hf⟩ := flush_cases (noted commit) b (s, [])
  · exact .inl ⟨hd, hf⟩
  · obtain ⟨rfl, rfl⟩ := Prod.mk.inj (hn.symm.trans hw)
    exact .inr (.inl ⟨hd, s', rfl, hf⟩)
  · obtain ⟨rfl, rfl⟩ := Prod.mk.inj (hn.symm.trans hw)
    exact .inr (.inr ⟨hd, error, s', rfl, hf⟩)

theorem run_serve_flush {b b' : Buffer} {s s' : σ} {result : Except IoError Unit}
    {commits : List Commit}
    (h : (b.flush (noted commit)).run (s, []) = ((result, b'), (s', commits))) :
    (serve commit b .flush).run s = ((⟨.flush, .done result, commits⟩, b'), s') := by
  show Buffer.serve commit b .flush s = _
  dsimp only [Buffer.serve]
  rw [h]

theorem run_finish {b b' : Buffer} {s s' : σ} {result : Except IoError Unit}
    {commits : List Commit}
    (h : (b.flush (noted commit)).run (s, []) = ((result, b'), (s', commits))) :
    (finish commit b).run s = (commits, s') := by
  have hclose : (b.close (noted commit)).run (s, []) = ((), (s', commits)) := by
    rw [close, StateT.run_bind, h]
    rfl
  show finish commit b s = _
  rw [finish, hclose]

/-- A call that is no flush and no write that is carried out leaves unsaved what was. -/
theorem Tracks.quiet (h : Tracks writable data past b) {c : Buffer} (hr : e.request ≠ .flush)
    (hwrote : ¬ e.Wrote) (hcommits : e.commits = [])
    (hplays : c.Plays ((tapeAfter writable data past).after writable e.request))
    (hsame : c.writable = b.writable ∧ c.dirty = b.dirty)
    (hanswer : e.answer = (tapeAfter writable data past).answer writable [] e.request) :
    Lawful writable data past e ∧ Tracks writable data (past ++ [e]) c := by
  refine ⟨⟨by rw [hcommits, hanswer], fun hd => absurd hd.1 hr, fun _ => hcommits⟩,
    by rwa [tapeAfter_snoc], hsame.1.trans h.writable, ?_⟩
  have hsaved : ¬ e.Saved := by
    rintro ⟨x, hx, -⟩
    rw [hcommits] at hx
    cases hx
  rw [hsame.2, h.dirty, unsaved_snoc]
  simp [hwrote, hsaved]

/-- A write that is carried out leaves something unsaved. -/
theorem Tracks.wrote (h : Tracks writable data past b) (hw : b.writable = true) (bytes : Bytes) :
    Lawful writable data past ⟨.write bytes, .number (.ok bytes.length), []⟩ ∧
      Tracks writable data (past ++ [⟨.write bytes, .number (.ok bytes.length), []⟩])
        (b.write bytes).2 := by
  have hwritable : writable = true := h.writable ▸ hw
  refine ⟨⟨?_, fun hd => (by cases hd.1), fun _ => rfl⟩, ?_, ?_, ?_⟩
  · show _ = Answer.number (if writable then _ else _)
    rw [if_pos hwritable]
  · rw [tapeAfter_snoc]
    show Plays _ (if writable then _ else _)
    rw [if_pos hwritable]
    exact h.plays.write hw bytes
  · rw [write_of_writable hw]
    exact h.writable
  · rw [write_of_writable hw, unsaved_snoc]
    exact ⟨fun _ => .inl ⟨bytes, bytes.length, rfl, rfl⟩, fun _ => rfl⟩

/-- A flush of what is not marked has nothing to commit. -/
theorem Tracks.flushed_clean (h : Tracks writable data past b) (hd : b.dirty = false) :
    Lawful writable data past ⟨.flush, .done (.ok ()), []⟩ ∧
      Tracks writable data (past ++ [⟨.flush, .done (.ok ()), []⟩]) b := by
  have hsaved : ¬ Unsaved past := fun hu => by
    rw [h.dirty.mpr hu] at hd
    cases hd
  refine ⟨⟨rfl, fun hdue => absurd hdue.2 hsaved, fun _ => rfl⟩, ?_, h.writable, ?_⟩
  · rw [tapeAfter_snoc]
    exact h.plays
  · rw [h.dirty, unsaved_snoc]
    refine ⟨fun hu => absurd hu hsaved, ?_⟩
    rintro (⟨_, _, hr, -⟩ | hu)
    · cases hr
    · exact hu.1

/-- A flush of what is marked commits the contents, and the mark stays if that is refused. -/
theorem Tracks.flushed_dirty (h : Tracks writable data past b) (hd : b.dirty = true)
    (result : Except IoError Unit) {c : Buffer} (hplays : c.Plays (tapeAfter writable data past))
    (hwritable : c.writable = b.writable) (hdirty : c.dirty = true ↔ result ≠ .ok ()) :
    Lawful writable data past ⟨.flush, .done result, [⟨b.contents, result⟩]⟩ ∧
      Tracks writable data (past ++ [⟨.flush, .done result, [⟨b.contents, result⟩]⟩]) c := by
  have hunsaved : Unsaved past := h.dirty.mp hd
  refine ⟨⟨rfl, fun _ => ⟨result, by rw [h.plays.contents]⟩,
    fun hno => absurd ⟨rfl, hunsaved⟩ hno⟩, ?_, hwritable.trans h.writable, ?_⟩
  · rw [tapeAfter_snoc]
    exact hplays
  · rw [hdirty, unsaved_snoc]
    simp [Event.Wrote, Event.Saved, hunsaved]

/-- One call: it is answered and committed as it should, and the buffer keeps track. -/
theorem Tracks.serve (h : Tracks writable data past b) (r : Request) (s : σ) :
    ∃ e b' s', (serve commit b r).run s = ((e, b'), s') ∧ e.request = r ∧
      Lawful writable data past e ∧ Tracks writable data (past ++ [e]) b' ∧
      Touched commit b s s' e.commits := by
  cases r with
  | read n =>
      obtain ⟨hgot, hplays⟩ := h.plays.read n
      obtain ⟨hlaw, htracks⟩ := h.quiet (e := ⟨.read n, .bytes (b.read n).1, []⟩) (by simp)
        (by rintro ⟨_, _, hr, -⟩; cases hr) rfl hplays ⟨rfl, rfl⟩ (by rw [hgot]; rfl)
      exact ⟨_, _, s, rfl, rfl, hlaw, htracks, .inl ⟨rfl, rfl⟩⟩
  | write bytes =>
      refine ⟨_, _, s, rfl, rfl, ?_⟩
      cases hw : b.writable with
      | true =>
          obtain ⟨hlaw, htracks⟩ := h.wrote hw bytes
          rw [write_of_writable hw] at htracks ⊢
          exact ⟨hlaw, htracks, .inl ⟨rfl, rfl⟩⟩
      | false =>
          have hno : writable = false := h.writable ▸ hw
          have hwrote : ¬ Event.Wrote ⟨.write bytes, .number (.error readOnly), []⟩ := by
            rintro ⟨_, _, -, ha⟩
            cases ha
          rw [write_of_not_writable hw]
          obtain ⟨hlaw, htracks⟩ := h.quiet (c := b) (by simp) hwrote rfl
            (by subst hno; exact h.plays) ⟨rfl, rfl⟩ (by subst hno; rfl)
          exact ⟨hlaw, htracks, .inl ⟨rfl, rfl⟩⟩
  | seek goal =>
      refine ⟨_, _, s, rfl, rfl, ?_⟩
      have hwrote (a : Except IoError Nat) : ¬ Event.Wrote ⟨.seek goal, .number a, []⟩ := by
        rintro ⟨_, _, hr, -⟩
        cases hr
      obtain ⟨p, hp, he⟩ | ⟨hp, he⟩ := h.plays.seek goal
      · have hplays : Plays { b with position := p }
            ((tapeAfter writable data past).after writable (.seek goal)) :=
          ⟨h.plays.contents, by rw [Tape.after, hp]; rfl⟩
        rw [he]
        obtain ⟨hlaw, htracks⟩ := h.quiet (by simp) (hwrote _) rfl hplays ⟨rfl, rfl⟩
          (by rw [Tape.answer, hp, Option.elim])
        exact ⟨hlaw, htracks, .inl ⟨rfl, rfl⟩⟩
      · rw [he]
        obtain ⟨hlaw, htracks⟩ := h.quiet (c := b) (by simp) (hwrote _) rfl
          ⟨h.plays.contents, by rw [Tape.after, hp]; exact h.plays.position⟩ ⟨rfl, rfl⟩
          (by rw [Tape.answer, hp, Option.elim])
        exact ⟨hlaw, htracks, .inl ⟨rfl, rfl⟩⟩
  | flush =>
      obtain ⟨hd, hf⟩ | ⟨hd, s', hc, hf⟩ | ⟨hd, error, s', hc, hf⟩ := flush_noted_cases commit b s
      · obtain ⟨hlaw, htracks⟩ := h.flushed_clean hd
        exact ⟨_, b, s, run_serve_flush commit hf, rfl, hlaw, htracks, .inl ⟨rfl, rfl⟩⟩
      · obtain ⟨hlaw, htracks⟩ := h.flushed_dirty hd (.ok ()) (c := { b with dirty := false })
          ⟨h.plays.contents, h.plays.position⟩ rfl (by simp)
        exact ⟨_, _, s', run_serve_flush commit hf, rfl, hlaw, htracks,
          .inr ⟨hd, by rw [hc], by rw [hc]⟩⟩
      · obtain ⟨hlaw, htracks⟩ := h.flushed_dirty hd (.error error) h.plays rfl (by simp [hd])
        exact ⟨_, _, s', run_serve_flush commit hf, rfl, hlaw, htracks,
          .inr ⟨hd, by rw [hc], by rw [hc]⟩⟩

/-- The drop: it commits what is unsaved, and hears of no refusal. -/
theorem Tracks.finish (h : Tracks writable data past b) (s : σ) :
    ∃ commits s', (Buffer.finish commit b).run s = (commits, s') ∧
      CommitsWhen (Unsaved past) (tapeAfter writable data past).bytes commits ∧
      Touched commit b s s' commits := by
  obtain ⟨hd, hf⟩ | ⟨hd, s', hc, hf⟩ | ⟨hd, error, s', hc, hf⟩ := flush_noted_cases commit b s
  · refine ⟨_, s, run_finish commit hf, ⟨fun hu => ?_, fun _ => rfl⟩, .inl ⟨rfl, rfl⟩⟩
    rw [h.dirty.mpr hu] at hd
    cases hd
  · exact ⟨_, s', run_finish commit hf,
      ⟨fun _ => ⟨_, by rw [h.plays.contents]⟩, fun hno => absurd (h.dirty.mp hd) hno⟩,
      .inr ⟨hd, by rw [hc], by rw [hc]⟩⟩
  · exact ⟨_, s', run_finish commit hf,
      ⟨fun _ => ⟨_, by rw [h.plays.contents]⟩, fun hno => absurd (h.dirty.mp hd) hno⟩,
      .inr ⟨hd, by rw [hc], by rw [hc]⟩⟩

/-! ## Whole histories -/

/-- Any calls and then the drop, after what happened before. -/
theorem Tracks.history (h : Tracks writable data past b) (requests : List Request) (s : σ) :
    let run := ((Buffer.history commit b requests).run s).1
    run.events.map (·.request) = requests ∧
    (∀ before e after, run.events = before ++ e :: after →
      Lawful writable data (past ++ before) e) ∧
    CommitsWhen (Unsaved (past ++ run.events)) (tapeAfter writable data (past ++ run.events)).bytes
      run.last := by
  induction requests generalizing past b s with
  | nil =>
      obtain ⟨commits, s', hf, hwhen, -⟩ := h.finish commit s
      have hrun : (Buffer.history commit b []).run s = (⟨[], commits⟩, s') := by
        rw [Buffer.history, StateT.run_bind, hf]
        rfl
      rw [hrun]
      refine ⟨rfl, by simp, ?_⟩
      rwa [List.append_nil]
  | cons r rs ih =>
      obtain ⟨e, b', s', hs, hr, hlaw, htracks, -⟩ := h.serve commit r s
      obtain ⟨hrequests, hevents, hlast⟩ := ih htracks s'
      have hrun : ((Buffer.history commit b (r :: rs)).run s).1
          = ⟨e :: ((Buffer.history commit b' rs).run s').1.events,
              ((Buffer.history commit b' rs).run s').1.last⟩ := by
        rw [Buffer.history, StateT.run_bind, hs]
        rfl
      rw [hrun]
      refine ⟨?_, ?_, ?_⟩
      · rw [List.map_cons, hrequests, hr]
      · intro before x after heq
        cases before with
        | nil =>
            obtain ⟨rfl, -⟩ := List.cons_eq_cons.mp heq
            rwa [List.append_nil]
        | cons y before =>
            obtain ⟨rfl, htail⟩ := List.cons_eq_cons.mp heq
            rw [List.append_cons]
            exact hevents before x after htail
      · rwa [List.append_cons]

end

/-- After a flush that succeeded nothing is unsaved. -/
theorem Lawful.saved_of_flush (h : Lawful writable data past e) (hr : e.request = .flush)
    (ha : e.answer = .done (.ok ())) : ¬ Unsaved (past ++ [e]) := by
  rw [unsaved_snoc]
  rintro (⟨_, _, hw, -⟩ | ⟨hu, hs⟩)
  · rw [hr] at hw
    cases hw
  · obtain ⟨result, hc⟩ := h.commits.once ⟨hr, hu⟩
    have hresult := h.answer
    rw [ha, hr, hc] at hresult
    obtain rfl := Answer.done.inj hresult
    exact hs ⟨_, by rw [hc]; exact List.mem_singleton.mpr rfl, rfl⟩

/-- What a refused commit was to save is still unsaved after it. -/
theorem Lawful.unsaved_of_refused (h : Lawful writable data past e) {c : Commit}
    (hc : c ∈ e.commits) (hrefused : c.result ≠ .ok ()) :
    Unsaved (past ++ [e]) := by
  have hdue : e.request = .flush ∧ Unsaved past := by
    by_contra hno
    rw [h.commits.never hno] at hc
    cases hc
  obtain ⟨result, he⟩ := h.commits.once hdue
  rw [he] at hc
  obtain rfl := List.mem_singleton.mp hc
  refine unsaved_snoc.mpr (.inr ⟨hdue.2, ?_⟩)
  rintro ⟨d, hd, hok⟩
  rw [he] at hd
  obtain rfl := List.mem_singleton.mp hd
  exact hrefused hok

/-- A stream that only reads has nothing unsaved. -/
theorem not_unsaved_of_reader (data : Bytes) (h : ∀ before e after, past = before ++ e :: after →
    Lawful false data before e) : ¬ Unsaved past := by
  rintro ⟨before, e, after, heq, ⟨_, _, hr, ha⟩, -⟩
  have := (h before e after heq).answer
  rw [ha, hr] at this
  cases this

/-- A stream over any bytes, with a callback that takes or refuses what it likes, used by any calls
and then dropped.  Every call is answered as on an array of bytes with a position, commits the
whole array if it is a flush and a write was carried out since the last commit that succeeded, and
commits nothing otherwise; and so does the drop.  Hence after a flush that succeeded nothing is
unsaved, a commit that was refused is made again by the next flush or, if there is none, by the
drop, and a stream that only reads refuses every write and commits nothing. -/
theorem commits_what_is_unsaved {σ : Type} (commit : Bytes → StateM σ (Except IoError Unit)) (s : σ)
    (writable : Bool) (data : Bytes) (requests : List Request) :
    let opened := if writable then writer data else reader data
    let run := ((history commit opened requests).run s).1
    run.events.map (·.request) = requests ∧
    (∀ past e rest, run.events = past ++ e :: rest →
      Lawful writable data past e ∧
      (e.request = .flush → e.answer = .done (.ok ()) → ¬ Unsaved (past ++ [e])) ∧
      ((∃ c ∈ e.commits, c.result ≠ .ok ()) →
        (∀ between f after, rest = between ++ f :: after → (∀ x ∈ between, x.request ≠ .flush) →
          f.request = .flush → f.commits ≠ []) ∧
        ((∀ x ∈ rest, x.request ≠ .flush) → run.last ≠ []))) ∧
    CommitsWhen (Unsaved run.events) (tapeAfter writable data run.events).bytes run.last ∧
    (writable = false → run.last = [] ∧ ∀ e ∈ run.events, e.commits = [] ∧
      ∀ bytes, e.request = .write bytes → e.answer = .number (.error readOnly)) := by
  intro opened run
  obtain ⟨hrequests, hevents, hlast⟩ := (tracks_new writable data).history commit requests s
  rw [List.nil_append] at hlast
  simp only [List.nil_append] at hevents
  refine ⟨hrequests, ?_, hlast, ?_⟩
  · intro past e rest hsplit
    have hlaw : Lawful writable data past e := hevents past e rest hsplit
    refine ⟨hlaw, hlaw.saved_of_flush, ?_⟩
    rintro ⟨c, hc, hrefused⟩
    have hunsaved := hlaw.unsaved_of_refused hc hrefused
    -- until the next flush it stays unsaved
    have hstill : ∀ between after, rest = between ++ after → (∀ x ∈ between, x.request ≠ .flush) →
        Unsaved (past ++ [e] ++ between) := by
      intro between after hrest hquiet
      refine hunsaved.append fun x hx => ?_
      obtain ⟨front, back, rfl⟩ := List.append_of_mem hx
      have hx' : run.events = (past ++ e :: front) ++ x :: (back ++ after) := by
        rw [hsplit, hrest]
        simp
      exact (hevents _ x _ hx').not_saved (hquiet x hx)
    refine ⟨?_, ?_⟩
    · intro between f after hrest hquiet hf
      have hf' : run.events = (past ++ [e] ++ between) ++ f :: after := by
        rw [hsplit, hrest]
        simp
      obtain ⟨result, hcommits⟩ := (hevents _ f after hf').commits.once
        ⟨hf, hstill between (f :: after) hrest hquiet⟩
      rw [hcommits]
      exact List.cons_ne_nil _ _
    · intro hquiet
      have hall := hstill rest [] (List.append_nil rest).symm hquiet
      rw [List.append_assoc, List.singleton_append, ← hsplit] at hall
      obtain ⟨result, hcommits⟩ := hlast.once hall
      rw [hcommits]
      exact List.cons_ne_nil _ _
  · rintro rfl
    refine ⟨hlast.never (not_unsaved_of_reader data hevents), ?_⟩
    intro e he
    obtain ⟨past, rest, hsplit⟩ := List.append_of_mem he
    have hlaw := hevents past e rest hsplit
    refine ⟨hlaw.commits.never fun hdue => ?_, ?_⟩
    · refine not_unsaved_of_reader data (fun before x after heq => ?_) hdue.2
      exact hevents before x (after ++ e :: rest) (by rw [hsplit, heq]; simp)
    · intro bytes hr
      rw [hlaw.answer, hr]
      rfl

/-- The refusal of a callback. -/
def refusal : IoError := .stated .other "commit refused"

/-- A callback that counts its calls and refuses the first one. -/
def refusesFirst (_ : Bytes) : StateM Nat (Except IoError Unit) := fun calls =>
  (if calls = 0 then .error refusal else .ok (), calls + 1)

theorem commits_what_is_unsaved_refused :
    let run := ((history refusesFirst (writer [1])
      [.seek (.finish 1), .write [7], .flush, .read 2]).run 0).1
    let refused : Event := ⟨.flush, .done (.error refusal), [⟨[1, 0, 7], .error refusal⟩]⟩
    (∃ past rest, run.events = past ++ refused :: rest ∧ ∀ x ∈ rest, x.request ≠ .flush) ∧
      run.last ≠ [] ∧ ∃ result, run.last = [⟨[1, 0, 7], result⟩] := by
  intro run refused
  let past : List Event :=
    [⟨.seek (.finish 1), .number (.ok 2), []⟩, ⟨.write [7], .number (.ok 1), []⟩]
  let rest : List Event := [⟨.read 2, .bytes [], []⟩]
  have hsplit : run.events = past ++ refused :: rest := rfl
  have hquiet : ∀ x ∈ rest, x.request ≠ .flush := by simp [rest]
  obtain ⟨-, hevents, hlast, -⟩ := commits_what_is_unsaved refusesFirst 0 true [1]
    [.seek (.finish 1), .write [7], .flush, .read 2]
  obtain ⟨-, -, hretry⟩ := hevents past refused rest hsplit
  have hrefused : ∃ c ∈ refused.commits, c.result ≠ .ok () :=
    ⟨_, List.mem_singleton.mpr rfl, by simp⟩
  have hunsaved : Unsaved run.events :=
    ⟨[⟨.seek (.finish 1), .number (.ok 2), []⟩], ⟨.write [7], .number (.ok 1), []⟩,
      refused :: rest, rfl, ⟨[7], 1, rfl, rfl⟩, by simp [refused, rest, Event.Saved]⟩
  exact ⟨⟨past, rest, hsplit, hquiet⟩, (hretry hrefused).2 hquiet, hlast.once hunsaved⟩

end Buffer

end Strata
