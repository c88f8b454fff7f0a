/-
# `Strata.Proofs.Shell.Write` — what is read of a file after it was written

To write a path is to look it up, to make a file there if nothing is found, to open the
entry for writing and to hand the input to the stream.  Each of these asks the layers by
a rule of its own: the first that has the path, the first that can create, the first
that opens, beginning with the layer of the entry.  So the input is read back only if
the layer of the entry can both read and be written; else what was opened may be
another file, which that layer hides, or one that no layer shows (`write_read_back`).
-/
import Strata.Proofs.Overlay.Writing
import Strata.Proofs.Shell.Runs
import Strata.Proofs.Store.Streams

namespace Strata.Shell

open Strata.Action Strata.Overlay Strata.Path

/-! ## The steps of a write -/

section
variable {σ F E S : Type} (P : Provider σ F E S)

/-- What is left of a write once the file was opened. -/
def deliver (s : S) (data : Bytes) : Run σ F E Unit := do
  let (written, s) ← stream (P.streams.writeAll s data)
  let (result, s) ← match written with
    | .ok () => stream (P.streams.flush s)
    | .error e => pure (.error e, s)
  stream (P.streams.close s)
  match result with
  | .ok () => return ()
  | .error e => throw [e.message]

/-- Opens a file and hands it the data. -/
def fill (node : Node E) (data : Bytes) : Run σ F E Unit := do
  deliver P (← call (Overlay.openStream P node .writing)) data

theorem execute_write (input : Bytes) (path : String) :
    execute P input (.write path) = (do
      let node ← match ← call (Overlay.entry P path) with
        | some node => pure node
        | none => call (Overlay.create P .root .file path)
      fill P node input) := rfl

end

variable {s s' : Store} {ids : List Nat} {path : String} {input out out' : Bytes}

/-- What a new stream on an empty file is handed is in the file at the end. -/
theorem exec_deliver (n : Nat) {id : Nat} (hid : id < s.memories.size)
    (hf : (s.memory id).tree.find? path = some (.file [] s.clock)) (data : Bytes)
    (o : Overlay Filesystem Entry) (out : Bytes) :
    ∃ s', (deliver (Store.provider (n + 1)) (.buffer (.writer []) (some (id, path))) data).exec
        (s, o) out = (.ok (), ((s', o), out)) ∧ s.Filled s' id path data := by
  have hstreams : (Store.provider (n + 1)).streams = Store.streams := rfl
  by_cases h0 : data = []
  · -- Nothing is written then, and nothing is there to be flushed.
    subst h0
    exact ⟨s, rfl, fun _ _ => rfl, .refl path _, hf⟩
  · let b : Buffer := { contents := data, position := data.length, writable := true, dirty := true }
    have hwrite : (Store.streams.writeAll (.buffer (.writer []) (some (id, path))) data).run s
        = ((.ok (), .buffer b (some (id, path))), s) := Store.run_writeAll_writer h0 _ s
    refine ⟨_, ?_, Store.filled_setMemory hid hf data⟩
    have hflush := Store.run_flush hf (show b.dirty = true from rfl)
    simp only [deliver, hstreams, Run.exec_bind, Run.exec_stream, hwrite, hflush]
    rfl

/-- What was filled was opened before. -/
theorem opened_of_fill {σ F E S : Type} {P : Provider σ F E S} {node : Node E}
    {w : σ × Overlay F E} {rest : (σ × Overlay F E) × Bytes}
    (h : (fill P node input).exec w out = (.ok (), rest)) :
    ∃ stream w', (openStream P node .writing).exec w = (.ok stream, w') := by
  rw [fill, Run.exec_bind, Run.exec_call] at h
  rcases hopen : (openStream P node .writing).exec w with ⟨e | stream, w'⟩
  · rw [hopen] at h
    cases h
  · exact ⟨stream, w', rfl⟩

section
variable (n : Nat) (hs : ∀ id ∈ ids, (s.memory id).tree.Clean)
  (hstored : ∀ id ∈ ids, id < s.memories.size) {o o' : Overlay Filesystem Entry}
  (ho : Over s (ids.map .memory) (s, o))
include hs hstored ho

/-- An entry that was filled is a file, and the data is in the file of its own layer, if that may be
written, and else in one of another layer. -/
theorem fill_cases (child : Child Entry) {own : Nat} (hat : ids[child.offer.layer]? = some own)
    (hsource : child.offer.source = .memory own child.offer.path)
    (hp : Path.Clean child.offer.path)
    (hexec : (fill (Store.provider (n + 1)) (.entry child) input).exec (s, o) out
      = (.ok (), ((s', o'), out'))) :
    (s.memory own).kind child.offer.path = .file ∧
      ∃ id ∈ ids, (s.memory id).operations.covers (.only .write) = true ∧
        ((s.memory own).operations.covers (.only .write) = true → id = own) ∧
        s.Filled s' id child.offer.path input := by
  obtain ⟨stream, w, hopen⟩ := opened_of_fill hexec
  obtain ⟨hfile, id, t, hid, hops, hsame, rfl, rfl, hclock, hsize, hemptied⟩ :=
    openStream_writing_cases n hs hstored ho hat hsource hp hopen
  have hf : (t.memory id).tree.find? child.offer.path = some (.file [] t.clock) := by
    rw [hclock]
    exact hemptied.contents
  obtain ⟨t', hdeliver, hfilled⟩ := exec_deliver n (hsize ▸ hstored id hid) hf input o out
  rw [fill, Run.exec_bind, Run.exec_call, hopen] at hexec
  have heq : ((.ok (), ((t', o), out)) : Except (List String) Unit × _)
      = (.ok (), ((s', o'), out')) := hdeliver.symm.trans hexec
  obtain ⟨-, h⟩ := Prod.mk.inj heq
  obtain ⟨h, -⟩ := Prod.mk.inj h
  obtain ⟨rfl, -⟩ := Prod.mk.inj h
  exact ⟨hfile, id, hid, hops, hsame, hemptied.trans hfilled hclock⟩

end

/-- The position of the layer whose file is opened first: that of the entry, or that of the layer
that takes new entries. -/
def home? (s : Store) (layers : List Filesystem) : Option (Node Entry) → Option Nat
  | some node => node.layer?
  | none => (taker? s layers "").map (·.2)

/-- All that a write leaves behind: it made the path ready to be opened in its home, and filled the
file there or another one. -/
structure Wrote (s s' : Store) (ids : List Nat) (path : String) (input : Bytes)
    (found : Option (Node Entry)) (own i : Nat) : Prop where
  home : home? s (ids.map .memory) found = some i
  layer : ids[i]? = some own
  left : ∃ s₁ id, Ready s s₁ ids path own i ∧
    (s₁.memory own).kind (normalize path false) = .file ∧
    id ∈ ids ∧ (s₁.memory id).operations.covers (.only .write) = true ∧
    ((s₁.memory own).operations.covers (.only .write) = true → id = own) ∧
    s₁.Filled s' id (normalize path false) input

/-- A file that was made is there to be filled only if the names of its path are trimmed. -/
theorem clean_of_filled {n id i slot : Nat} {place : String} {t : Memory.Tree}
    {o : Overlay Filesystem Entry} (hs : ∀ id ∈ ids, (s.memory id).tree.Clean)
    (hstored : ∀ id ∈ ids, id < s.memories.size) (hid : id ∈ ids)
    (hensure : (Memory.Tree.ensure s.clock place .file).exec (s.memory id).tree = (.ok (), t))
    {rest : (Store × Overlay Filesystem Entry) × Bytes}
    (hexec : (fill (Store.provider (n + 1)) (.entry ⟨slot, ⟨place, .memory id place, i⟩⟩) input).exec
      (s.setMemory id { s.memory id with tree := t }, o) out = (.ok (), rest)) :
    Path.Clean place := by
  obtain ⟨_, _, hopen⟩ := opened_of_fill hexec
  have hkind : ((s.setMemory id { s.memory id with tree := t }).memory id).kind place = .file :=
    (file_of_openStream hopen).2.2
  rw [Store.memory_setMemory, if_pos ⟨rfl, hstored id hid⟩] at hkind
  have hfound :
      ((Memory.Tree.ensure s.clock place .file).exec (s.memory id).tree).2.find? place ≠ none := by
    rw [hensure]
    intro hmiss
    cases hkind.symm.trans (Memory.Tree.kind_eq_unknown.mpr hmiss)
  exact Memory.Tree.clean_of_ensure (hs id hid) hfound

section
variable (n : Nat) (hs : ∀ id ∈ ids, (s.memory id).tree.Clean)
  (hstored : ∀ id ∈ ids, id < s.memories.size) {o o' : Overlay Filesystem Entry}
  (ho : Over s (ids.map .memory) (s, o))
include hs hstored ho

/-- Filling an entry that was found. -/
theorem wrote_of_found {node : Node Entry} {label : Nat → String}
    (hsound : Sound (ids.map .memory) label Whatever o node)
    (hpath : node.path = normalize path false)
    (hfound : found s (ids.map .memory) path = .ok (some node.offer?))
    (hexec : (fill (Store.provider (n + 1)) node input).exec (s, o) out
      = (.ok (), ((s', o'), out'))) :
    ∃ own i, Wrote s s' ids path input (some node) own i := by
  cases node with
  | root =>
      obtain ⟨_, _, hopen⟩ := opened_of_fill hexec
      cases (file_of_openStream hopen).2.2
  | entry child =>
      obtain ⟨f, hlayer, hsource⟩ := hsound.source _ rfl
      rw [List.getElem?_map] at hlayer
      obtain ⟨own, hat, rfl⟩ := Option.map_eq_some_iff.mp hlayer
      have hpath : child.offer.path = normalize path false := hpath
      have h0 : normalize path false ≠ "" := by
        intro h0
        rw [found, h0, components_empty] at hfound
        cases hfound
      obtain ⟨hfile, id, hid, hops, hsame, hfilled⟩ :=
        fill_cases n hs hstored ho child hat hsource hsound.path hexec
      have hoffer : child.offer
          = ⟨normalize path false, .memory own (normalize path false), child.offer.layer⟩ := by
        rw [← hpath, ← show child.offer.source = .memory own child.offer.path from hsource]
      rw [hpath] at hfile hfilled
      have hfound : found s (ids.map .memory) path = .ok (some (some child.offer)) := hfound
      rw [hoffer] at hfound
      exact ⟨own, child.offer.layer, rfl, hat, s, id, ready_of_found hs h0 hfound, hfile, hid, hops,
        hsame, hfilled⟩

/-- Filling an entry that was made since nothing was found. -/
theorem wrote_of_created (hfound : found s (ids.map .memory) path = .ok none)
    (hexec : (do
        let node ← call (create (Store.provider (n + 1)) .root .file path)
        fill (Store.provider (n + 1)) node input).exec (s, o) out
      = (.ok (), ((s', o'), out'))) :
    ∃ own i, Wrote s s' ids path input none own i := by
  have hk : Kind.file.isCreatable = true := rfl
  rw [Run.exec_bind, Run.exec_call] at hexec
  obtain ⟨-, e, hcreate⟩ | ⟨id, i, r, t, h0, htaker, hensure, herror, hok⟩ :=
    create_root_cases n (cleanTree_memory hs) (isBare_memory ids) hk ho.layers ho.live path
  · rw [hcreate] at hexec
    cases hexec
  have hid : id ∈ ids := List.mem_of_getElem? (getElem?_of_taker htaker)
  cases r with
  | error e =>
      rw [herror e rfl] at hexec
      cases hexec
  | ok u =>
      rw [hok rfl] at hexec
      let s₁ : Store := s.setMemory id { s.memory id with tree := t }
      let child : Child Entry := ⟨(o.noted 0).listings.size,
        ⟨normalize path false, .memory id (normalize path false), i⟩⟩
      have hexec : (fill (Store.provider (n + 1)) (.entry child) input).exec
          (s₁, (addNode (o.noted 0) child.offer).2) out = (.ok (), ((s', o'), out')) := hexec
      have hat := getElem?_of_taker htaker
      have hp := clean_of_filled hs hstored hid hensure hexec
      have hplanted : s.Planted s₁ id .file (components (normalize path false)) :=
        Store.planted_setMemory (hstored id hid)
          ((Memory.Tree.planted_of_ensure hk hp h0 (hs id hid) hensure).2 rfl)
      have hstored₁ : ∀ j ∈ ids, j < s₁.memories.size :=
        fun j hj => (Array.size_setIfInBounds ..).symm ▸ hstored j hj
      have hnoted := (ho.changed s₁).noted 0
      have hmade : Over s₁ (ids.map .memory) (s₁, (addNode (o.noted 0) child.offer).2) :=
        ⟨hnoted.trees, hnoted.layers, hnoted.fold, hnoted.live⟩
      obtain ⟨hfile, j, hj, hops, hsame, hfilled⟩ :=
        fill_cases n (hplanted.clean hs) hstored₁ hmade child hat rfl hp hexec
      have hready : Ready s s₁ ids path id i :=
        ready_of_planted hs rfl h0 hp hplanted htaker hfound
      exact ⟨id, i, congrArg (Option.map Prod.snd) htaker, hat, s₁, j, hready, hfile, hj, hops,
        hsame, hfilled⟩

end

theorem wrote_of_execute (n : Nat) (hs : ∀ id ∈ ids, (s.memory id).tree.Clean)
    (hstored : ∀ id ∈ ids, id < s.memories.size) (policy : Policy) {o' : Overlay Filesystem Entry}
    (hexec : (execute (Store.provider (n + 1)) input (.write path)).exec (newUnion s ids policy) out
      = (.ok (), ((s', o'), out'))) :
    ∃ found w own i, (entry (Store.provider (n + 1)) path).exec (newUnion s ids policy)
      = (.ok found, w) ∧ Wrote s s' ids path input found own i := by
  obtain ⟨r, label, o, he, ho, hfound, hnode⟩ := exec_entry_new n hs policy path
  simp only [execute_write, Run.exec_bind, Run.exec_call, he] at hexec
  rcases r with e | _ | node
  · cases hexec
  · obtain ⟨own, i, hwrote⟩ := wrote_of_created n hs hstored ho hfound.symm hexec
    exact ⟨none, _, own, i, he, hwrote⟩
  · obtain ⟨hsound, hpath⟩ := hnode node rfl
    obtain ⟨own, i, hwrote⟩ := wrote_of_found n hs hstored ho hsound hpath hfound.symm hexec
    exact ⟨some node, _, own, i, he, hwrote⟩

/-! ## Reading what was written -/

/-- Let a write to a new union over memory filesystems succeed, and let its home be the layer of the
entry at the path or, where nothing was found, the layer that takes new entries.  Then the input is
in the file at the path of a layer that may be written, and that is the home if the home may be
written.  A new union prints it if the home can read and may be written.  If the home can read but
may not be written, what it held is printed as before; if the home cannot read, the path is not
shown at all. -/
theorem write_read_back (n : Nat) (hs : ∀ id ∈ ids, (s.memory id).tree.Clean)
    (hstored : ∀ id ∈ ids, id < s.memories.size) (policy policy' : Policy)
    {o' : Overlay Filesystem Entry}
    (hexec : (execute (Store.provider (n + 1)) input (.write path)).exec (newUnion s ids policy) out
      = (.ok (), ((s', o'), out'))) :
    ∃ found w own i, (entry (Store.provider (n + 1)) path).exec (newUnion s ids policy)
        = (.ok found, w) ∧
      home? s (ids.map .memory) found = some i ∧ ids[i]? = some own ∧
      let reads := (s.memory own).operations.covers (.only .read) = true
      let writes := (s.memory own).operations.covers (.only .write) = true
      let cat := (execute (Store.provider (n + 1)) [] (.cat path)).exec (newUnion s' ids policy')
      (∃ id ∈ ids, (s.memory id).operations.covers (.only .write) = true ∧ (writes → id = own) ∧
        (s'.memory id).tree.find? (normalize path false) = some (.file input s.clock)) ∧
      (reads → writes → ∃ w', cat [] = (.ok (), (w', input))) ∧
      (reads → ¬ writes →
        ∃ w', cat [] = (.ok (), (w', (Entry.memory own (normalize path false)).bytes s))) ∧
      (¬ reads → ∃ w', cat [] = (.error [s!"{path}: no such file or directory"], (w', []))) := by
  obtain ⟨found, w, own, i, he, hhome, hat, s₁, id, hready, hfile, hid, hops, hsame, hfilled⟩ :=
    wrote_of_execute n hs hstored policy hexec
  refine ⟨found, w, own, i, he, hhome, hat, ?_⟩
  intro reads writes cat
  have hown : own ∈ ids := List.mem_of_getElem? hat
  have hbytes := hready.bytesAt_eq n hown hfile hops hsame hfilled policy'
  rw [hready.operations] at hops hsame
  refine ⟨⟨id, hid, hops, hsame, hready.clock ▸ hfilled.contents⟩, ?_, ?_, ?_⟩
  · intro hreads hwrites
    have hread : Filesystem.canRead s (.memory own) = true := hreads
    rw [if_pos hread, if_pos hwrites] at hbytes
    exact exec_cat_of_bytes [] [] hbytes
  · intro hreads hwrites
    have hread : Filesystem.canRead s (.memory own) = true := hreads
    rw [if_pos hread, if_neg hwrites] at hbytes
    exact exec_cat_of_bytes [] [] hbytes
  · intro hreads
    have hread : ¬ Filesystem.canRead s (.memory own) = true := hreads
    rw [if_neg hread] at hbytes
    exact exec_cat_of_none [] [] hbytes

theorem write_read_back_new_file :
    let P := Store.provider 1
    let s : Store := { memories := #[{}] }
    (∀ id ∈ [0], (s.memory id).tree.Clean) ∧ (∀ id ∈ [0], id < s.memories.size) ∧
      ∃ s' o' out', (execute P [7] (.write "a")).exec (newUnion s [0] .onDemand) []
          = (.ok (), ((s', o'), out')) ∧
        ∃ w', (execute P [] (.cat "a")).exec (newUnion s' [0] .onDemand) [] = (.ok (), (w', [7])) := by
  intro P s
  have hs : ∀ id ∈ [0], (s.memory id).tree.Clean := by decide
  have hstored : ∀ id ∈ [0], id < s.memories.size := by decide
  obtain ⟨s', o', out', hexec⟩ : ∃ s' o' out',
      (execute P [7] (.write "a")).exec (newUnion s [0] .onDemand) []
        = (.ok (), ((s', o'), out')) := by
    have hok : ((execute P [7] (.write "a")).exec (newUnion s [0] .onDemand) []).1.toOption
        = some () := by decide +kernel
    rcases hrun : (execute P [7] (.write "a")).exec (newUnion s [0] .onDemand) []
      with ⟨e | ⟨⟩, ⟨s', o'⟩, out'⟩
    · rw [hrun] at hok
      cases hok
    · exact ⟨s', o', out', rfl⟩
  obtain ⟨-, -, own, i, -, -, hat, -, hread, -⟩ :=
    write_read_back 0 hs hstored .onDemand .onDemand hexec
  obtain rfl : own = 0 := List.mem_singleton.mp (List.mem_of_getElem? hat)
  exact ⟨hs, hstored, s', o', out', hexec, hread (by decide) (by decide)⟩

/-- Two memory filesystems that have a file of one name: what is in the first can only be read. -/
def readOnlyOverEmpty : Store where
  memories := #[⟨"memory", .only .read, ⟨⟨[("", .directory .epoch), ("a", .file [1] .epoch)]⟩⟩⟩,
    ⟨"memory", .only .read ∪ .only .write,
      ⟨⟨[("", .directory .epoch), ("a", .file [] .epoch)]⟩⟩⟩]

/-- The write succeeds on the second file, and the first one is still what is printed. -/
theorem written_file_hidden :
    let P := Store.provider 1
    let before := newUnion readOnlyOverEmpty [0, 1] .onDemand
    let written := (execute P [7] (.write "a")).exec before []
    let after := newUnion written.2.1.1 [0, 1] .onDemand
    let cat := (execute P [] (.cat "a")).exec after []
    (∀ id ∈ [0, 1], (readOnlyOverEmpty.memory id).tree.Clean) ∧
      (operations P before.2 before.1).covers (.only .read) = true ∧
      written.1.toOption = some () ∧ cat.1.toOption = some () ∧ cat.2.2 = [1] :=
  ⟨by decide, by decide, by decide +kernel, by decide +kernel, by decide +kernel⟩

end Strata.Shell
