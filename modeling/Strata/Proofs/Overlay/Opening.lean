/-
# `Strata.Proofs.Overlay.Opening` — which layer a stream comes from

An opening turns to the layer of the entry first, and when that fails to the others
from the top down, as long as they may be asked and have a file at the path.  The
first that succeeds hands out the stream, and no layer is turned to after it.

So nothing is left of the failures before it but that the probes have counted them:
what changes in the layers is the file that was opened, and that only if its stream
starts from nothing (`open_picks_first`).
-/
import Strata.Proofs.Overlay.Origins
import Strata.Proofs.Overlay.Walk
import Strata.Proofs.Store.Opening

namespace Strata

open Strata.Action Strata.Path

namespace Overlay

/-- Whether the layer may be asked for what the mode needs, and has a file at the path. -/
def canServe (s : Store) (mode : OpenMode) (path : String) (f : Filesystem) : Bool :=
  (f.allows s).covers mode.required && (f.outline s).kind path == .file

/-- The layers from a position on that an opening may fall back to, each with its position. -/
def fallbacks (s : Store) (mode : OpenMode) (path : String) (own layer : Nat)
    (rest : List Filesystem) : List (Filesystem × Nat) :=
  (rest.zipIdx layer).filter fun t => t.2 != own && canServe s mode path t.1

/-- The layers that an opening may turn to, in this order: the entry's own, then the others from the
top down. -/
def turns (s : Store) (layers : List Filesystem) (mode : OpenMode) (path : String) (own : Nat) :
    List (Filesystem × Nat) :=
  layers[own]?.toList.map (·, own) ++ fallbacks s mode path own 0 layers

/-- Whether the layer itself opens its file at the path. -/
def opens (n : Nat) (s : Store) (mode : OpenMode) (path : String) (t : Filesystem × Nat) : Bool :=
  (t.1.opened n s mode path).isOk

/-- The layers up to the first that opens its file. -/
def tried (n : Nat) (s : Store) (mode : OpenMode) (path : String)
    (ts : List (Filesystem × Nat)) : List (Filesystem × Nat) :=
  ts.takeWhile (fun t => !opens n s mode path t) ++ (ts.find? (opens n s mode path)).toList

/-- The store after the probes have counted, and after the file of the chosen layer was emptied if
the mode asks for that. -/
def settled (s : Store) (mode : OpenMode) (path : String) (probes : List Nat)
    (chosen : Option (Filesystem × Nat)) : Store :=
  match chosen with
  | some t =>
    if mode.truncates then (s.countOpens probes).plant t.1 path .file else s.countOpens probes
  | none => s.countOpens probes

variable (n : Nat) {s : Store} {mode : OpenMode} {path : String}

theorem canServe_iff {f : Filesystem} : canServe s mode path f = true ↔
    (f.allows s).covers mode.required = true ∧ (f.outline s).kind path = .file := by
  rw [canServe, Bool.and_eq_true, beq_iff_eq]

theorem opens_eq_true {t : Filesystem × Nat} (h : opens n s mode path t = true) :
    ∃ stream, t.1.opened n s mode path = .ok stream := by
  cases ho : t.1.opened n s mode path with
  | ok stream => exact ⟨stream, rfl⟩
  | error e => rw [opens, ho] at h; cases h

theorem opens_eq_false {t : Filesystem × Nat} (h : opens n s mode path t = false) :
    ∃ e, t.1.opened n s mode path = .error e := by
  cases ho : t.1.opened n s mode path with
  | ok stream => rw [opens, ho] at h; cases h
  | error e => exact ⟨e, rfl⟩

theorem tried_cons_of_opens {t : Filesystem × Nat} {ts : List (Filesystem × Nat)}
    (h : opens n s mode path t = true) : tried n s mode path (t :: ts) = [t] := by
  simp [tried, h]

theorem tried_cons_of_not_opens {t : Filesystem × Nat} {ts : List (Filesystem × Nat)}
    (h : opens n s mode path t = false) :
    tried n s mode path (t :: ts) = t :: tried n s mode path ts := by
  simp [tried, h]

/-! ## One layer after the other -/

/-- One turn, after others that have failed. -/
theorem exec_turn {f : Filesystem} (hf : f.CleanTree s) (layer : Nat) (ps : List Nat) :
    ((Store.provider (n + 1)).openStream (f.entryAt path) mode).exec (s.countOpens ps) =
      (f.opened n s mode path,
        settled s mode path (ps ++ f.asked s path)
          (if opens n s mode path (f, layer) then some (f, layer) else none)) := by
  rw [Filesystem.exec_openStream_exact n mode (hf.congr (s.sameTrees_countOpens ps)),
    f.opened_countOpens n mode hf, f.asked_countOpens, ← s.countOpens_append, opens]
  refine congrArg (Prod.mk _) ?_
  cases (f.opened n s mode path).isOk with
  | true => rfl
  | false => rfl

/-- A turn to a layer that an opening falls back to. -/
theorem exec_openInLayer_of_file {f : Filesystem} (hf : f.CleanTree s) (hp : Path.Clean path)
    (hk : (f.outline s).kind path = .file) (layer : Nat) (ps : List Nat) :
    (openInLayer (Store.provider (n + 1)) mode path f).exec (s.countOpens ps) =
      (.ok (f.opened n s mode path).toOption,
        settled s mode path (ps ++ f.asked s path)
          (if opens n s mode path (f, layer) then some (f, layer) else none)) := by
  have htrees := s.sameTrees_countOpens ps
  have hresolve := f.exec_resolve n (hf.congr htrees) hp
  have hkind : (Store.provider (n + 1)).kind (f.entryAt path) (s.countOpens ps) = .file :=
    ((hf.congr htrees).kind_entryAt path).trans (by rw [f.outline_congr htrees, hk])
  rw [f.outline_congr htrees, hk, show Kind.file.exists? = true from rfl, if_pos rfl] at hresolve
  rw [openInLayer]
  simp only [exec_bind, exec_attempt, hresolve, exec_get, hkind]
  rw [show Kind.file.isFile = true from rfl, if_pos rfl]
  simp only [exec_bind, exec_attempt, exec_turn n hf layer, exec_pure]

theorem exec_openInLayer_of_no_file {f : Filesystem} (hf : f.CleanTree s) (hp : Path.Clean path)
    (hk : (f.outline s).kind path ≠ .file) :
    (openInLayer (Store.provider (n + 1)) mode path f).exec s = (.ok none, s) := by
  have hkind : (Store.provider (n + 1)).kind (f.entryAt path) s = (f.outline s).kind path :=
    hf.kind_entryAt path
  have hfile : ((f.outline s).kind path).isFile = false := by
    cases hkp : (f.outline s).kind path with
    | file => exact absurd hkp hk
    | _ => rfl
  rw [openInLayer]
  simp only [exec_bind, exec_attempt, f.exec_resolve n hf hp]
  by_cases he : ((f.outline s).kind path).exists? = true
  · simp only [if_pos he, exec_bind, exec_get, hkind, hfile, Bool.false_eq_true, if_false, exec_pure]
  · simp only [if_neg he, exec_pure]

theorem fallbacks_cons (own layer : Nat) (f : Filesystem) (rest : List Filesystem) :
    fallbacks s mode path own layer (f :: rest) =
      if layer ≠ own ∧ canServe s mode path f = true then
        (f, layer) :: fallbacks s mode path own (layer + 1) rest
      else fallbacks s mode path own (layer + 1) rest := by
  simp [fallbacks, List.zipIdx_cons, List.filter_cons]

/-- The layers that an opening falls back to are turned to until one opens its file. -/
theorem exec_openFrom_exact (hp : Path.Clean path) (own layer : Nat) (rest : List Filesystem)
    (hs : ∀ f ∈ rest, f.CleanTree s) (ps : List Nat) :
    (openFrom (Store.provider (n + 1)) mode mode.required path (some own) layer rest).exec
        (s.countOpens ps) =
      (.ok (((fallbacks s mode path own layer rest).find? (opens n s mode path)).bind fun t =>
          (t.1.opened n s mode path).toOption),
        settled s mode path
          (ps ++ (tried n s mode path (fallbacks s mode path own layer rest)).flatMap fun t =>
            t.1.asked s path)
          ((fallbacks s mode path own layer rest).find? (opens n s mode path))) := by
  induction rest generalizing layer ps with
  | nil =>
      rw [show fallbacks s mode path own layer [] = [] from rfl]
      simp only [List.find?_nil, tried, List.takeWhile_nil, Option.toList_none, List.append_nil,
        List.flatMap_nil]
      rfl
  | cons f rest ih =>
      obtain ⟨hf, hrest⟩ := List.forall_mem_cons.mp hs
      have htrees := s.sameTrees_countOpens ps
      have hops : (Store.provider (n + 1)).operations f (s.countOpens ps) = f.allows s :=
        ((hf.congr htrees).operations _).trans (f.allows_congr htrees)
      rw [openFrom, fallbacks_cons]
      simp only [exec_bind, exec_get, hops]
      by_cases hturn : layer ≠ own ∧ canServe s mode path f = true
      · obtain ⟨hcovers, hfile⟩ := canServe_iff.mp hturn.2
        have hcond : (some layer != some own && (f.allows s).covers mode.required) = true := by
          simp [hturn.1, hcovers]
        rw [if_pos hturn, hcond, if_pos rfl, exec_bind,
          exec_openInLayer_of_file n hf hp hfile layer]
        cases hopen : opens n s mode path (f, layer) with
        | true =>
            obtain ⟨stream, hstream⟩ := opens_eq_true n hopen
            rw [List.find?_cons_of_pos hopen, tried_cons_of_opens n hopen]
            simp [hstream, Except.toOption]
        | false =>
            obtain ⟨e, he⟩ := opens_eq_false n hopen
            rw [List.find?_cons_of_neg (by simp [hopen]), tried_cons_of_not_opens n hopen,
              List.flatMap_cons, ← List.append_assoc, ← ih (layer + 1) hrest]
            simp [he, Except.toOption, settled]
      · rw [if_neg hturn, ← ih (layer + 1) hrest ps]
        by_cases hcond : (some layer != some own && (f.allows s).covers mode.required) = true
        · -- the layer may be asked, so it has no file at the path
          have hno : (f.outline (s.countOpens ps)).kind path ≠ .file := by
            rw [f.outline_congr htrees]
            simp only [Bool.and_eq_true, bne_iff_ne, ne_eq, Option.some.injEq] at hcond
            exact fun hfile => hturn ⟨hcond.1, canServe_iff.mpr ⟨hcond.2, hfile⟩⟩
          rw [if_pos hcond, exec_bind, exec_openInLayer_of_no_file n (hf.congr htrees) hp hno]
        · rw [if_neg hcond, exec_bind, exec_pure]

/-! ## Opening through a union -/

/-- The mode asks for something, and for nothing that is not supported. -/
theorem checkAgainst_eq_ok {supported : Operations} (hmode : mode.required.isNone = false)
    (h : supported.covers mode.required = true) (path : String) :
    mode.checkAgainst supported path = .ok mode.required := by
  simp [OpenMode.checkAgainst, hmode, h]

/-- An opening of a file turns to the layers until one opens its file. -/
theorem exec_openStream_exact {w : Store × Overlay Filesystem Entry} {child : Child Entry}
    {f : Filesystem} (hlive : w.2.released = false) (hs : ∀ g ∈ w.2.layers, g.CleanTree w.1)
    (hf : w.2.layers[child.offer.layer]? = some f)
    (hsource : child.offer.source = f.entryAt child.offer.path)
    (hp : Path.Clean child.offer.path)
    (hk : kind (Store.provider (n + 1)) (.entry child) w.1 = .file)
    (hmode : mode.required.isNone = false)
    (hcan : (operations (Store.provider (n + 1)) w.2 w.1).covers mode.required = true) :
    (openStream (Store.provider (n + 1)) (.entry child) mode).exec w =
      let ts := turns w.1 w.2.layers mode child.offer.path child.offer.layer
      let chosen := ts.find? (opens n w.1 mode child.offer.path)
      (match chosen with
        | some t => t.1.opened n w.1 mode child.offer.path
        | none => .error (.backend s!"no filesystem could open {child.offer.path}"),
        (settled w.1 mode child.offer.path
          ((tried n w.1 mode child.offer.path ts).flatMap fun t => t.1.asked w.1 child.offer.path)
          chosen, w.2)) := by
  have hclean := hs f (List.mem_of_getElem? hf)
  have hturns : turns w.1 w.2.layers mode child.offer.path child.offer.layer =
      (f, child.offer.layer) ::
        fallbacks w.1 mode child.offer.path child.offer.layer 0 w.2.layers := by
    rw [turns, hf]
    rfl
  have hown : ((Store.provider (n + 1)).openStream child.offer.source mode).exec w.1 =
      (f.opened n w.1 mode child.offer.path,
        settled w.1 mode child.offer.path (f.asked w.1 child.offer.path)
          (if opens n w.1 mode child.offer.path (f, child.offer.layer) then
            some (f, child.offer.layer) else none)) := by
    rw [hsource]
    exact exec_turn n hclean child.offer.layer []
  rw [openStream, hturns]
  simp only [exec_bind, exec_requireLive hlive, exec_get, exec_ofExcept,
    checkAgainst_eq_ok hmode hcan, hk, show Kind.file.isFile = true from rfl, if_true,
    Node.source?, Node.path, Node.layer?, exec_attempt, exec_below, hown]
  cases hopen : opens n w.1 mode child.offer.path (f, child.offer.layer) with
  | true =>
      obtain ⟨stream, hstream⟩ := opens_eq_true n hopen
      rw [List.find?_cons_of_pos hopen, tried_cons_of_opens n hopen]
      simp [hstream]
  | false =>
      obtain ⟨e, he⟩ := opens_eq_false n hopen
      rw [List.find?_cons_of_neg (by simp [hopen]), tried_cons_of_not_opens n hopen,
        List.flatMap_cons]
      simp only [he, Bool.false_eq_true, if_false, settled, exec_bind, exec_below,
        exec_openFrom_exact n hp child.offer.layer 0 w.2.layers hs]
      cases hchosen : (fallbacks w.1 mode child.offer.path child.offer.layer 0 w.2.layers).find?
          (opens n w.1 mode child.offer.path) with
      | none => rfl
      | some t =>
          obtain ⟨stream, hstream⟩ := opens_eq_true n (List.find?_some hchosen)
          simp [hstream, Except.toOption]

/-! ## What is left of it -/

theorem settled_eq (probes : List Nat) (chosen : Option (Filesystem × Nat)) :
    settled s mode path probes chosen =
      { s.countOpens probes with memories := (settled s mode path probes chosen).memories } := by
  cases chosen with
  | none => rfl
  | some t =>
      cases ht : mode.truncates with
      | false => simp [settled, ht]
      | true =>
          have := (s.countOpens probes).plant_eq t.1 path .file
          simpa [settled, ht] using this

theorem settled_others (probes : List Nat) (chosen : Option (Filesystem × Nat)) :
    settled s mode path probes chosen =
      { s with
        memories := (settled s mode path probes chosen).memories
        probes := (settled s mode path probes chosen).probes } := by
  rw [settled_eq, s.countOpens_eq]

theorem memories_settled_none (probes : List Nat) :
    (settled s mode path probes none).memories = s.memories := by
  rw [settled, s.countOpens_eq]

theorem probe_settled {probes : List Nat} (chosen : Option (Filesystem × Nat)) {q : Nat}
    (hq : q < s.probes.size) :
    (settled s mode path probes chosen).probe q =
      { s.probe q with opens := (s.probe q).opens + probes.count q } := by
  rw [settled_eq]
  exact s.probe_countOpens hq probes

theorem memory_settled (probes : List Nat) {chosen : Option (Filesystem × Nat)}
    (h : ∀ t ∈ chosen, t.1.CleanTree s ∧ (t.1.outline s).kind path = .file) (id : Nat) :
    (settled s mode path probes chosen).memory id =
      if mode.truncates = true ∧ (chosen.bind (·.1.memory?)) = some id then
        { s.memory id with tree := (s.memory id).tree.put path (.file [] s.clock) }
      else s.memory id := by
  have hcount : (s.countOpens probes).memory id = s.memory id := by rw [s.countOpens_eq]; rfl
  have hclock : (s.countOpens probes).clock = s.clock := by rw [s.countOpens_eq]
  cases chosen with
  | none => simpa [settled] using hcount
  | some t =>
      obtain ⟨hclean, hfile⟩ := h t rfl
      have htrees := s.sameTrees_countOpens probes
      cases ht : mode.truncates with
      | false => simpa [settled, ht] using hcount
      | true =>
          have := Store.memory_plant_file (hclean.congr htrees)
            (by rw [t.1.outline_congr htrees]; exact hfile) id
          simpa [settled, ht, hcount, hclock] using this

/-- A file of a node stands for a file of its layer, under the path of the node. -/
theorem exists_source {layers : List Filesystem} {child : Child Entry}
    (hs : ∀ f ∈ layers, f.CleanTree s)
    (horigin : child.offer.Origin (Store.provider (n + 1)) Filesystem.Has layers)
    (hk : kind (Store.provider (n + 1)) (.entry child) s = .file) :
    ∃ f, layers[child.offer.layer]? = some f ∧
      child.offer.source = f.entryAt child.offer.path ∧ Path.Clean child.offer.path ∧
      (f.outline s).kind child.offer.path = .file := by
  obtain ⟨⟨f, hf, hhas⟩, hpath⟩ := horigin
  have hclean := hs f (List.mem_of_getElem? hf)
  obtain ⟨p, hsource⟩ := hhas.exists_entryAt hclean
  have hkind : (f.outline s).kind p = .file := by
    rw [← hclean.kind_entryAt p, ← hsource]
    exact hk
  have hp : Path.Clean p := hclean.outline_clean.clean_of_exists (hkind ▸ rfl)
  have hname : (Store.provider (n + 1)).path child.offer.source = p := by
    rw [hsource]
    exact hclean.path_entryAt p
  rw [hname, hp.1] at hpath
  rw [hpath]
  exact ⟨f, hf, hsource, hp, hkind⟩

/-! ## Which layers are turned to -/

theorem tried_of_turns (ts : List (Filesystem × Nat)) : tried n s mode path ts <+: ts := by
  induction ts with
  | nil => exact List.prefix_refl []
  | cons t ts ih =>
      cases h : opens n s mode path t with
      | true =>
          rw [tried_cons_of_opens n h]
          exact List.prefix_append [t] ts
      | false =>
          rw [tried_cons_of_not_opens n h]
          exact (List.prefix_cons_inj t).mpr ih

/-- No layer has two turns. -/
theorem nodup_turns (s : Store) (layers : List Filesystem) (mode : OpenMode) (path : String)
    (own : Nat) : ((turns s layers mode path own).map (·.2)).Nodup := by
  have hall : ((layers.zipIdx 0).map (·.2)).Nodup := by
    rw [List.zipIdx_map_snd]
    exact List.nodup_range'
  have hrest : ((fallbacks s mode path own 0 layers).map (·.2)).Nodup :=
    hall.sublist (List.filter_sublist.map _)
  rw [turns]
  cases layers[own]? with
  | none => exact hrest
  | some f =>
      refine List.nodup_cons.mpr ⟨?_, hrest⟩
      intro hmem
      obtain ⟨t, ht, hown⟩ := List.mem_map.mp hmem
      have := (List.mem_filter.mp ht).2
      simp [hown] at this

/-- Every layer that has a turn keeps a tree of its own, with a file at the path. -/
theorem file_of_mem_turns {layers : List Filesystem} {own : Nat} {t : Filesystem × Nat}
    (hs : ∀ f ∈ layers, f.CleanTree s)
    (hown : ∀ f, layers[own]? = some f → (f.outline s).kind path = .file)
    (ht : t ∈ turns s layers mode path own) :
    t.1.CleanTree s ∧ (t.1.outline s).kind path = .file := by
  rcases List.mem_append.mp ht with ht | ht
  · obtain ⟨f, hf, rfl⟩ := List.mem_map.mp ht
    have hf := Option.mem_toList.mp hf
    exact ⟨hs f (List.mem_of_getElem? hf), hown f hf⟩
  · obtain ⟨hmem, hserve⟩ := List.mem_filter.mp ht
    exact ⟨hs t.1 (List.fst_mem_of_mem_zipIdx hmem),
      (canServe_iff.mp (Bool.and_eq_true_iff.mp hserve).2).2⟩

/-- Where a layer was chosen there is a stream. -/
theorem chosen_eq_none {ts : List (Filesystem × Nat)} {failure e : Failure}
    (h : (match ts.find? (opens n s mode path) with
      | some t => t.1.opened n s mode path
      | none => .error failure) = .error e) : ts.find? (opens n s mode path) = none := by
  cases hchosen : ts.find? (opens n s mode path) with
  | none => rfl
  | some t =>
      obtain ⟨stream, hstream⟩ := opens_eq_true n (List.find?_some hchosen)
      rw [hchosen] at h
      cases hstream.symm.trans h

/-- Whatever was done with a union over memory filesystems and archives, whichever paths their probes
refuse: a file is opened by the first layer that succeeds, the layer of the entry first and then the
others from the top down, if they may be asked for what the mode needs and have a file at the path.
No layer is turned to twice, or after the first that succeeds, and if none succeeds the union fails
as a filesystem does.  A failure changes nothing in the layers; a success changes only the file that
was opened, and empties it if the stream starts from nothing. -/
theorem open_picks_first {n : Nat} {layers₀ : List Filesystem} {policy : Policy} {s₀ : Store}
    {held : List (Node Entry)} {w : Store × Overlay Filesystem Entry}
    (h : Reaches (Store.provider (n + 1)) (fun _ _ => True) (fun _ _ => True) [.root]
      (s₀, { layers := layers₀, policy := policy }) held w)
    (hs : ∀ f ∈ w.2.layers, f.CleanTree w.1) {child : Child Entry} (hheld : .entry child ∈ held)
    (hk : kind (Store.provider (n + 1)) (.entry child) w.1 = .file) {mode : OpenMode}
    (hmode : mode.required.isNone = false)
    (hcan : (operations (Store.provider (n + 1)) w.2 w.1).covers mode.required = true) :
    let path := child.offer.path
    let ts := turns w.1 w.2.layers mode path child.offer.layer
    let chosen := ts.find? (opens n w.1 mode path)
    ∃ f r s', w.2.layers[child.offer.layer]? = some f ∧ child.offer.source = f.entryAt path ∧
      (openStream (Store.provider (n + 1)) (.entry child) mode).exec w = (r, (s', w.2)) ∧
      r = (match chosen with
        | some t => t.1.opened n w.1 mode path
        | none => .error (.backend s!"no filesystem could open {path}")) ∧
      ((tried n w.1 mode path ts).map (·.2)).Nodup ∧
      (∀ q < w.1.probes.size, s'.probe q =
        { w.1.probe q with
          opens := (w.1.probe q).opens +
            ((tried n w.1 mode path ts).flatMap fun t => t.1.asked w.1 path).count q }) ∧
      s' = { w.1 with memories := s'.memories, probes := s'.probes } ∧
      (∀ e, r = .error e → s'.memories = w.1.memories) ∧
      ∀ id, s'.memory id =
        if mode.truncates = true ∧ (chosen.bind (·.1.memory?)) = some id then
          { w.1.memory id with tree := (w.1.memory id).tree.put path (.file [] w.1.clock) }
        else w.1.memory id := by
  intro path ts chosen
  obtain ⟨f, hf, hsource, hp, hfile⟩ :=
    exists_source n hs (h.origin (Store.provider_closed n) _ hheld _ rfl) hk
  have hexec := exec_openStream_exact n h.steady.released hs hf hsource hp hk hmode hcan
  have hclean : ∀ t ∈ chosen, t.1.CleanTree w.1 ∧ (t.1.outline w.1).kind path = .file := by
    intro t ht
    refine file_of_mem_turns hs (fun g hg => ?_) (List.mem_of_find?_eq_some ht)
    obtain rfl := Option.some.inj (hg.symm.trans hf)
    exact hfile
  refine ⟨f, _, _, hf, hsource, hexec, rfl, ?_, ?_, ?_, ?_, ?_⟩
  · exact (nodup_turns w.1 w.2.layers mode path child.offer.layer).sublist
      ((tried_of_turns n ts).sublist.map _)
  · exact fun q hq => probe_settled chosen hq
  · exact settled_others _ chosen
  · intro e he
    rw [show _ = none from chosen_eq_none n he]
    exact memories_settled_none _
  · exact memory_settled _ hclean

/-- Two memory filesystems that have a file of one name, and a probe that refuses to open it. -/
def refusing : Store where
  memories := #[{ tree := ⟨⟨[("", .directory .epoch), ("a", .file [1] .epoch)]⟩⟩ },
    { tree := ⟨⟨[("", .directory .epoch), ("a", .file [2] .epoch)]⟩⟩ }]
  probes := #[{ failing := ["a"] }]

/-- A union over both, with the probe around the first. -/
def refusingUnion : Store × Overlay Filesystem Entry :=
  (refusing, { layers := [.probed 0 (.memory 0), .memory 1] })

/-- The file in `refusingUnion`, once the root was listed. -/
def refusedChild : Child Entry := ⟨1, ⟨"a", .probed 0 (.memory 0 "a"), 0⟩⟩

/-- The file that was refused is left as it was, and the other one is written anew. -/
theorem open_picks_first_refused :
    let w := ((entry (Store.provider 1) "a").exec refusingUnion).2
    ∃ held, Reaches (Store.provider 1) (fun _ _ => True) (fun _ _ => True) [.root] refusingUnion
        held w ∧
      (∀ f ∈ w.2.layers, f.CleanTree w.1) ∧ .entry refusedChild ∈ held ∧
      kind (Store.provider 1) (.entry refusedChild) w.1 = .file ∧
      OpenMode.writing.required.isNone = false ∧
      (operations (Store.provider 1) w.2 w.1).covers OpenMode.writing.required = true ∧
      ∃ r s', (openStream (Store.provider 1) (.entry refusedChild) .writing).exec w
          = (r, (s', w.2)) ∧
        r = .ok (.buffer (.writer []) (some (1, "a"))) ∧
        (s'.memory 0).tree.find? "a" = some (.file [1] .epoch) ∧
        (s'.memory 1).tree.find? "a" = some (.file [] .epoch) ∧ (s'.probe 0).opens = 1 := by
  intro w
  have h : Reaches (Store.provider 1) (fun _ _ => True) (fun _ _ => True) [.root] refusingUnion
      _ w := .request (.entry "a") .start (by simp [Request.node?]) trivial
  have hs : ∀ f ∈ w.2.layers, f.CleanTree w.1 := by decide +kernel
  have hheld : .entry refusedChild ∈ [.root] ++
      handed (((Request.entry "a").perform (Store.provider 1)).exec refusingUnion).1 :=
    List.mem_append_right _ (List.mem_singleton.mpr rfl)
  have hk : kind (Store.provider 1) (.entry refusedChild) w.1 = .file := by decide +kernel
  have hcan : (operations (Store.provider 1) w.2 w.1).covers OpenMode.writing.required = true := by
    decide +kernel
  obtain ⟨f, r, s', -, -, hexec, hr, -, hprobes, -, -, hmemory⟩ :=
    open_picks_first h hs hheld hk rfl hcan
  have hchosen : (turns w.1 w.2.layers .writing refusedChild.offer.path
      refusedChild.offer.layer).find? (opens 0 w.1 .writing refusedChild.offer.path)
      = some (.memory 1, 1) := by decide +kernel
  refine ⟨_, h, hs, hheld, hk, rfl, hcan, r, s', hexec, ?_, ?_, ?_, ?_⟩
  · rw [hr, hchosen]
    rfl
  · rw [hmemory 0, hchosen]
    decide +kernel
  · rw [hmemory 1, hchosen]
    decide +kernel
  · rw [hprobes 0 (by decide +kernel)]
    decide +kernel

end Overlay

end Strata
