/-
# `Strata.Proofs.Overlay.Writing` — which file of which layer is written

To write a file of a union is to open it for writing.  The layer of the entry is asked
first; only if it may not be written does the opening fall back to another layer that
has a file at the path and may be written.  So the data goes to one file of one memory
filesystem and everything else stays (`Store.Filled`), and the union shows the same
entries as before, whatever the files hold (`Store.Filled.found_eq`).
-/
import Strata.Proofs.Memory.Streams
import Strata.Proofs.Overlay.New
import Strata.Proofs.Overlay.Opening

namespace Strata

open Strata.Action Strata.Path

/-! ## Opening a file of a memory filesystem for writing -/

namespace Memory

variable {m : Memory} {path : String}

theorem exec_openBuffer_writing (hops : m.operations.covers (.only .write) = true) {data : Bytes}
    {mtime : Timestamp} (hf : m.tree.find? path = some (.file data mtime)) (now : Timestamp) :
    (openBuffer now path .writing).exec m
      = (.ok (.writer []), { m with tree := m.tree.put path (.file [] now) }) := by
  have hcheck : OpenMode.writing.checkAgainst m.operations path = .ok (.only .write) := if_pos hops
  rw [openBuffer]
  simp only [exec_bind, exec_get, exec_ofExcept, hcheck, hf]
  rfl

/-- What is opened for writing is a file of a filesystem that may be written. -/
theorem openBuffer_writing_eq_ok {now : Timestamp} {b : Buffer}
    (h : ((openBuffer now path .writing).exec m).1 = .ok b) :
    m.operations.covers (.only .write) = true ∧ b = .writer [] := by
  by_cases hops : m.operations.covers (.only .write) = true
  · rcases hf : m.tree.find? path with _ | mtime | ⟨data, mtime⟩
    · have hcheck : OpenMode.writing.checkAgainst m.operations path = .ok (.only .write) :=
        if_pos hops
      rw [openBuffer] at h
      simp only [exec_bind, exec_get, exec_ofExcept, hcheck, hf] at h
      cases h
    · have hcheck : OpenMode.writing.checkAgainst m.operations path = .ok (.only .write) :=
        if_pos hops
      rw [openBuffer] at h
      simp only [exec_bind, exec_get, exec_ofExcept, hcheck, hf] at h
      cases h
    · rw [exec_openBuffer_writing hops hf] at h
      exact ⟨hops, (Except.ok.inj h).symm⟩
  · have hcheck : ∃ e, OpenMode.writing.checkAgainst m.operations path = .error e :=
      ⟨_, if_neg hops⟩
    obtain ⟨e, hcheck⟩ := hcheck
    rw [openBuffer] at h
    simp only [exec_bind, exec_get, exec_ofExcept, hcheck] at h
    cases h

end Memory

/-! ## One file with new contents -/

/-- The file at a path of a memory filesystem of the store holds the data; nothing else is changed in
any memory filesystem. -/
structure Store.Filled (s s' : Store) (id : Nat) (path : String) (data : Bytes) : Prop where
  others : ∀ j, j ≠ id → s'.memory j = s.memory j
  written : Memory.Written path (s.memory id) (s'.memory id)
  contents : (s'.memory id).tree.find? path = some (.file data s.clock)

theorem Store.filled_setMemory {s : Store} {id : Nat} {path : String} {old : Bytes}
    {mtime : Timestamp} (hid : id < s.memories.size)
    (hf : (s.memory id).tree.find? path = some (.file old mtime)) (data : Bytes) :
    s.Filled (s.setMemory id
      { s.memory id with tree := (s.memory id).tree.put path (.file data s.clock) }) id path
      data where
  others j hj := by rw [memory_setMemory, if_neg fun h => hj h.1]
  written := by
    obtain ⟨hno, -⟩ | ⟨_, _, -, he⟩ := Memory.commit_cases (s.memory id) s.clock path data
    · exact absurd (Memory.kind_of_file hf) hno
    · have := Memory.written_commit s.clock (s.memory id) path data
      rw [he] at this
      rwa [memory_setMemory, if_pos ⟨rfl, hid⟩]
  contents := by
    rw [memory_setMemory, if_pos ⟨rfl, hid⟩]
    exact (Memory.Tree.find?_put _ _ _ _).trans (if_pos rfl)

namespace Store.Filled

open Overlay

variable {s s' s'' : Store} {ids : List Nat} {id : Nat} {path : String} {data data' : Bytes}

theorem trans (h : s.Filled s' id path data) (h' : s'.Filled s'' id path data')
    (hclock : s'.clock = s.clock) : s.Filled s'' id path data' where
  others j hj := (h'.others j hj).trans (h.others j hj)
  written := {
    name := h'.written.name.trans h.written.name
    operations := h'.written.operations.trans h.written.operations
    others := fun q hq => (h'.written.others q hq).trans (h.written.others q hq)
    shape := fun q => (h'.written.shape q).trans (h.written.shape q)
    absent := by
      intro hno
      rw [← h.written.shape path] at hno
      exact (h'.written.absent hno).trans (h.written.absent (h.written.shape path ▸ hno)) }
  contents := hclock ▸ h'.contents

variable (h : s.Filled s' id path data)
include h

theorem kind_eq (j : Nat) (q : String) : (s'.memory j).kind q = (s.memory j).kind q := by
  by_cases hj : j = id
  · rw [hj, h.written.shape]
  · rw [h.others j hj]

theorem operations_eq (j : Nat) : (s'.memory j).operations = (s.memory j).operations := by
  by_cases hj : j = id
  · rw [hj, h.written.operations]
  · rw [h.others j hj]

theorem clean (hs : ∀ j ∈ ids, (s.memory j).tree.Clean) :
    ∀ j ∈ ids, (s'.memory j).tree.Clean :=
  fun j hj => (hs j hj).of_kind (h.kind_eq j)

theorem shift (hs : ∀ j ∈ ids, (s.memory j).tree.Clean) :
    s.Shift s' (ids.map .memory) fun _ => False where
  clean := cleanTree_memory (h.clean hs)
  allows := List.forall_mem_map.mpr fun j _ => h.operations_eq j
  kinds := List.forall_mem_map.mpr fun j _ ns _ _ => h.kind_eq j (ofNames ns)

/-- What a file holds makes no difference to what is found. -/
theorem found_eq (hs : ∀ j ∈ ids, (s.memory j).tree.Clean) (q : String) :
    found s' (ids.map .memory) q = found s (ids.map .memory) q := by
  have hn : ∀ m ∈ [] ++ components (normalize q false), IsComponent m := by
    rw [List.nil_append]
    exact fun _ => isComponent_of_mem
  exact follow_shift (cleanTree_memory hs) (h.shift hs) rfl hn fun _ _ => not_false

end Store.Filled

namespace Overlay

/-! ## Opening through a union -/

/-- A stream is handed out only of a file, and only if the union may be asked for it. -/
theorem file_of_openStream {σ F E S : Type} {P : Provider σ F E S} {node : Node E} {mode : OpenMode}
    {w w' : σ × Overlay F E} {stream : S} (h : (openStream P node mode).exec w = (.ok stream, w')) :
    mode.required.isNone = false ∧ (operations P w.2 w.1).covers mode.required = true ∧
      kind P node w.1 = .file := by
  rw [openStream] at h
  simp only [exec_bind, exec_get, exec_ofExcept] at h
  rcases hlive : (requireLive node : Call σ F E Unit).exec w with ⟨e | _, w''⟩
  · rw [hlive] at h
    cases h
  have hsame : w'' = w := by
    have := (ensures_requireLive (I := fun v => v = w) node w rfl).1
    rwa [hlive] at this
  rw [hlive, hsame] at h
  simp only at h
  rcases hcheck : mode.checkAgainst (operations P w.2 w.1) node.path with e | required
  · rw [hcheck] at h
    cases h
  · by_cases hfile : (kind P node w.1).isFile = true
    · have hkind : kind P node w.1 = .file := by simpa [Kind.isFile] using hfile
      rw [OpenMode.checkAgainst] at hcheck
      cases hnone : mode.required.isNone with
      | true => simp [hnone] at hcheck
      | false =>
          by_cases hcan : (operations P w.2 w.1).covers mode.required = true
          · exact ⟨rfl, hcan, hkind⟩
          · simp [hnone, hcan] at hcheck
    · simp only [hcheck, if_neg hfile, exec_bind, exec_throw] at h
      cases h

theorem getElem?_of_mem_turns {s : Store} {layers : List Filesystem} {mode : OpenMode}
    {path : String} {own : Nat} {t : Filesystem × Nat} (ht : t ∈ turns s layers mode path own) :
    layers[t.2]? = some t.1 := by
  rcases List.mem_append.mp ht with ht | ht
  · obtain ⟨f, hf, rfl⟩ := List.mem_map.mp ht
    exact Option.mem_toList.mp hf
  · exact List.mem_zipIdx_iff_getElem?.mp (List.mem_filter.mp ht).1

variable {s : Store} {ids : List Nat} (n : Nat)

/-- A memory filesystem opens its file for writing if it may be written. -/
theorem opened_writing {id : Nat} {path : String} {stream : Stream}
    (h : (Filesystem.memory id).opened n s .writing path = .ok stream) :
    (s.memory id).operations.covers (.only .write) = true ∧
      stream = .buffer (.writer []) (some (id, path)) := by
  rw [Filesystem.opened, Filesystem.entryAt, Filesystem.exec_openStream_memory] at h
  rcases hb : ((Memory.openBuffer s.clock path .writing).exec (s.memory id)).1 with e | b
  · rw [hb] at h
    cases h
  · obtain ⟨hops, rfl⟩ := Memory.openBuffer_writing_eq_ok hb
    rw [hb] at h
    exact ⟨hops, (Except.ok.inj h).symm⟩

theorem opens_writing {id layer : Nat} {path : String}
    (hops : (s.memory id).operations.covers (.only .write) = true)
    (hk : (s.memory id).kind path = .file) :
    opens n s .writing path (.memory id, layer) = true := by
  obtain ⟨data, mtime, hf⟩ := Memory.exists_file_of_kind hk
  rw [opens, Filesystem.opened, Filesystem.entryAt, Filesystem.exec_openStream_memory,
    Memory.exec_openBuffer_writing hops hf]
  rfl

section
variable {own layer : Nat} {path : String}

theorem exists_memory_of_mem_turns {mode : OpenMode} {t : Filesystem × Nat}
    (ht : t ∈ turns s (ids.map .memory) mode path layer) : ∃ id ∈ ids, t.1 = .memory id := by
  obtain ⟨id, hid, heq⟩ := List.mem_map.mp (List.mem_of_getElem? (getElem?_of_mem_turns ht))
  exact ⟨id, hid, heq.symm⟩

/-- Memory filesystems have no probes that would count. -/
theorem asked_of_turns (mode : OpenMode) :
    ((tried n s mode path (turns s (ids.map .memory) mode path layer)).flatMap fun t =>
      t.1.asked s path) = [] := by
  refine List.flatMap_eq_nil_iff.mpr fun t ht => ?_
  obtain ⟨id, -, hid⟩ := exists_memory_of_mem_turns ((tried_of_turns n _).subset ht)
  rw [hid]
  rfl

/-- The layer of the entry has the first turn. -/
theorem find?_turns_own {mode : OpenMode} {f : Filesystem} {layers : List Filesystem}
    (hat : layers[layer]? = some f) (hopens : opens n s mode path (f, layer) = true) :
    (turns s layers mode path layer).find? (opens n s mode path) = some (f, layer) := by
  rw [turns, hat]
  exact List.find?_cons_of_pos hopens

/-- The file that is opened for writing is of a memory filesystem that may be written: the one of the
entry's own layer, if that may be. -/
theorem chosen_writing (hs : ∀ id ∈ ids, (s.memory id).tree.Clean) (hat : ids[layer]? = some own)
    (hfile : (s.memory own).kind path = .file) {t : Filesystem × Nat}
    (ht : (turns s (ids.map .memory) .writing path layer).find? (opens n s .writing path) = some t) :
    ∃ id ∈ ids, t.1 = .memory id ∧ (s.memory id).operations.covers (.only .write) = true ∧
      (s.memory id).kind path = .file ∧
      t.1.opened n s .writing path = .ok (.buffer (.writer []) (some (id, path))) ∧
      ((s.memory own).operations.covers (.only .write) = true → id = own) := by
  have hlayer : (ids.map Filesystem.memory)[layer]? = some (.memory own) := by
    rw [List.getElem?_map, hat]
    rfl
  have hmem := List.mem_of_find?_eq_some ht
  obtain ⟨id, hid, hf⟩ := exists_memory_of_mem_turns hmem
  obtain ⟨stream, hopened⟩ := opens_eq_true n (List.find?_some ht)
  have hkind := (file_of_mem_turns (cleanTree_memory hs) (fun g hg => by
    obtain rfl := Option.some.inj (hg.symm.trans hlayer)
    exact hfile) hmem).2
  rw [hf] at hopened hkind
  obtain ⟨hops, rfl⟩ := opened_writing n hopened
  refine ⟨id, hid, hf, hops, hkind, hf ▸ hopened, fun hown => ?_⟩
  have hfirst := find?_turns_own n hlayer (opens_writing n hown hfile)
  have := congrArg Prod.fst (Option.some.inj (ht.symm.trans hfirst))
  exact Filesystem.memory.inj (hf.symm.trans this)

end

/-- An entry that is opened for writing is a file.  It is emptied if its own layer may be written,
else a file at its path in another layer that may. -/
theorem openStream_writing_cases (hs : ∀ id ∈ ids, (s.memory id).tree.Clean)
    (hstored : ∀ id ∈ ids, id < s.memories.size) {o : Overlay Filesystem Entry}
    (ho : Over s (ids.map .memory) (s, o)) {child : Child Entry} {own : Nat}
    (hat : ids[child.offer.layer]? = some own)
    (hsource : child.offer.source = .memory own child.offer.path)
    (hp : Path.Clean child.offer.path) {stream : Stream} {w : Store × Overlay Filesystem Entry}
    (hexec : (openStream (Store.provider (n + 1)) (.entry child) .writing).exec (s, o)
      = (.ok stream, w)) :
    (s.memory own).kind child.offer.path = .file ∧
      ∃ id s', id ∈ ids ∧ (s.memory id).operations.covers (.only .write) = true ∧
        ((s.memory own).operations.covers (.only .write) = true → id = own) ∧
        stream = .buffer (.writer []) (some (id, child.offer.path)) ∧
        w = (s', o) ∧ s'.clock = s.clock ∧ s'.memories.size = s.memories.size ∧
        s.Filled s' id child.offer.path [] := by
  obtain ⟨-, hcan, hkind⟩ := file_of_openStream hexec
  have hfile : (s.memory own).kind child.offer.path = .file := by
    have hown : kind (Store.provider (n + 1)) (.entry child) s = child.offer.source.kind s := rfl
    rw [hown, hsource] at hkind
    exact hkind
  have hlayer : o.layers[child.offer.layer]? = some (.memory own) := by
    rw [show o.layers = _ from ho.layers, List.getElem?_map, hat]
    rfl
  have hall : ∀ g ∈ o.layers, g.CleanTree s := ho.layers ▸ cleanTree_memory hs
  have hexact := exec_openStream_exact n ho.live hall hlayer hsource hp hkind rfl hcan
  rw [hexec, ho.layers] at hexact
  obtain ⟨hstream, hw⟩ := Prod.mk.inj hexact
  rw [asked_of_turns n .writing] at hw
  refine ⟨hfile, ?_⟩
  cases hchosen : (turns s (ids.map .memory) .writing child.offer.path child.offer.layer).find?
      (opens n s .writing child.offer.path) with
  | none =>
      rw [hchosen] at hstream
      cases hstream
  | some t =>
      rw [hchosen] at hstream hw
      obtain ⟨id, hid, hf, hops, hk, hopened, hown⟩ := chosen_writing n hs hat hfile hchosen
      obtain ⟨data, mtime, hdata⟩ := Memory.exists_file_of_kind hk
      have hplant : s.plant t.1 child.offer.path .file = s.setMemory id
          { s.memory id with
            tree := (s.memory id).tree.put child.offer.path (.file [] s.clock) } := by
        rw [hf]
        rfl
      have hw : w = (s.plant t.1 child.offer.path .file, o) := hw
      rw [hplant] at hw
      refine ⟨id, _, hid, hops, hown, Except.ok.inj (hstream.trans hopened), hw, rfl, ?_,
        Store.filled_setMemory (hstored id hid) hdata []⟩
      exact Array.size_setIfInBounds ..

/-! ## What is read of a file that was written -/

/-- The store in which an entry of a path can be opened, as the second one comes of the first: the
path is shown as the memory filesystem has it that is the layer of this position, with what it held,
if that can read, and else it is not shown. -/
structure Ready (s s₁ : Store) (ids : List Nat) (path : String) (own i : Nat) : Prop where
  clock : s₁.clock = s.clock
  clean : ∀ id ∈ ids, (s₁.memory id).tree.Clean
  operations : ∀ id, (s₁.memory id).operations = (s.memory id).operations
  shown : Filesystem.canRead s (.memory own) = true →
    found s₁ (ids.map .memory) path = .ok (some (some
        ⟨normalize path false, .memory own (normalize path false), i⟩)) ∧
      (Entry.memory own (normalize path false)).bytes s₁
        = (Entry.memory own (normalize path false)).bytes s
  hidden : Filesystem.canRead s (.memory own) = false →
    found s₁ (ids.map .memory) path = .ok none

section
variable {own i : Nat} {path : String}

/-- An entry that is found can be opened as it is. -/
theorem ready_of_found (hs : ∀ id ∈ ids, (s.memory id).tree.Clean) (h0 : normalize path false ≠ "")
    (hfound : found s (ids.map .memory) path = .ok (some (some
      ⟨normalize path false, .memory own (normalize path false), i⟩))) :
    Ready s s ids path own i where
  clock := rfl
  clean := hs
  operations _ := rfl
  shown _ := ⟨hfound, rfl⟩
  hidden hno := by
    have hprovided := provided_of_found_some (cleanTree_memory hs) h0 hfound
    obtain ⟨f, -, hheld, -, heq⟩ := provided_eq_some.mp hprovided
    rw [holds, Bool.and_eq_true] at hheld
    have hsource : f.entryAt (normalize path false) = .memory own (normalize path false) :=
      (congrArg Offer.source heq).symm
    cases f with
    | memory id =>
        obtain ⟨rfl, -⟩ := Entry.memory.inj hsource
        rw [hno] at hheld
        cases hheld.1
    | _ => cases hsource

/-- Where nothing was found, a new file can be opened. -/
theorem ready_of_planted (hs : ∀ id ∈ ids, (s.memory id).tree.Clean) {s₁ : Store}
    (hclock : s₁.clock = s.clock) (h0 : normalize path false ≠ "")
    (hp : Path.Clean (normalize path false))
    (h : s.Planted s₁ own .file (components (normalize path false)))
    (htaker : taker? s (ids.map .memory) "" = some (.memory own, i))
    (hfound : found s (ids.map .memory) path = .ok none) : Ready s s₁ ids path own i := by
  have hclean := cleanTree_memory hs
  have hnone := Option.map_eq_none_iff.mp (provided_of_found hclean h0 hfound)
  have hofNames := hp.ofNames_components
  have hafter := h.found_eq rfl hs htaker h0 rfl (passable_of_found hclean hfound)
  have hcases := h.provided_cases rfl hs htaker List.prefix_rfl
  rw [hofNames, hnone] at hcases
  obtain ⟨hat, -, -⟩ := find?_zipIdx_eq_some.mp htaker
  refine ⟨hclock, h.clean hs, h.operations_eq, fun hread => ⟨?_, ?_⟩, fun hno => ?_⟩
  · rcases hcases with ⟨-, -, hnew⟩ | ⟨hold, -⟩
    · rw [hafter, hnew]
      rfl
    · obtain ⟨o, ho, -⟩ := hold hread
      cases ho
  · -- the layer had nothing at the path, and has a file without contents now
    have hmiss : (s.memory own).tree.find? (normalize path false) = none := by
      by_contra hpresent
      have hheld : holds s (normalize path false) (.memory own) = true := by
        rw [holds, hread, Bool.true_and]
        exact Kind.exists?_iff.mpr fun hk => hpresent (Memory.Tree.kind_eq_unknown.mp hk)
      have := isSome_provided.mpr ⟨_, List.mem_of_getElem? hat, hheld⟩
      rw [hnone] at this
      cases this
    have hnew := h.tree.find?_target (fun _ => hp.isName) (hofNames.symm ▸ hmiss) rfl
    rw [hofNames] at hnew
    rw [Entry.bytes, Entry.bytes, hmiss, hnew]
    rfl
  · rcases hcases with ⟨hread, -⟩ | ⟨-, hnew⟩
    · rw [hno] at hread
      cases hread
    · rw [hafter, hnew]
      rfl

/-- What is read at the path of a file that was written: what was written, if the layer of the entry
can read and may be written. -/
theorem Ready.bytesAt_eq {s₁ s' : Store} {id : Nat} {data : Bytes} (h : Ready s s₁ ids path own i)
    (hown : own ∈ ids) (hfile : (s₁.memory own).kind (normalize path false) = .file)
    (hops : (s₁.memory id).operations.covers (.only .write) = true)
    (hsame : (s₁.memory own).operations.covers (.only .write) = true → id = own)
    (hfilled : s₁.Filled s' id (normalize path false) data) (policy : Policy) :
    ((bytesAt (Store.provider (n + 1)) path).exec (newUnion s' ids policy)).1 =
      if Filesystem.canRead s (.memory own) = true then
        .ok (some (if (s.memory own).operations.covers (.only .write) = true then data
          else (Entry.memory own (normalize path false)).bytes s))
      else .ok none := by
  have hclean := hfilled.clean h.clean
  rw [bytesAt_new n hclean, hfilled.found_eq h.clean]
  by_cases hread : Filesystem.canRead s (.memory own) = true
  swap
  · rw [h.hidden (by simpa using hread), if_neg hread]
    rfl
  obtain ⟨hfound, hbytes⟩ := h.shown hread
  have hread' : Filesystem.canRead s' (.memory own) = true := by
    rw [← hread]
    exact congrArg (fun ops : Operations => ops.covers (.only .read))
      ((hfilled.operations_eq own).trans (h.operations own))
  rw [hfound, if_pos hread, ← h.operations own]
  show (readAt s' (ids.map .memory) _).map some = _
  by_cases hwrite : (s₁.memory own).operations.covers (.only .write) = true
  · obtain rfl := hsame hwrite
    rw [if_pos hwrite, readAt_file hclean hown hread' hfilled.contents]
    rfl
  · -- the data went to another layer
    have hne : own ≠ id := fun heq => hwrite (heq ▸ hops)
    obtain ⟨old, mtime, hold⟩ := Memory.exists_file_of_kind hfile
    have hold' : (s'.memory own).tree.find? (normalize path false) = some (.file old mtime) := by
      rw [hfilled.others own hne]
      exact hold
    have hbytes' : (Entry.memory own (normalize path false)).bytes s₁ = old := by
      rw [Entry.bytes, hold]
    rw [if_neg hwrite, readAt_file hclean hown hread' hold', ← hbytes, hbytes']
    rfl

end

end Overlay

end Strata
