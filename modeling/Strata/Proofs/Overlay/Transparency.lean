/-
# `Strata.Proofs.Overlay.Transparency` — what is cached cannot be seen

As long as the trees below stay as they are, a union answers every request that
only reads as a union would that was made just now: `expected` is the answer,
and no listing occurs in it.  The nodes that the caller holds are `Genuine`, the
new union has the same entry at their paths.

What the caches save can be counted.  A step on a clean listing asks no layer; a
step on a dirty one asks each layer that can read and has the directory once.
After `populate` nothing is asked down to its depth, until a listing is marked
dirty or computed anew.
-/
import Strata.Proofs.Overlay.Readings

namespace Strata.Overlay

open Strata.Action Strata.Path

variable {s : Store} {layers : List Filesystem} {label : Nat → String}
  {w : Store × Overlay Filesystem Entry} {node : Node Entry}

/-! ## The same request at a new union -/

/-- The request at a union that somebody else made: a node is looked up by its path first. -/
def Request.renewed (P : Provider Store Filesystem Entry Stream) :
    Request Filesystem Entry → Call Store Filesystem Entry (Answer (Node Entry))
  | .ask node what => do
    match ← Overlay.entry P node.path with
    | some same => what.perform P same
    | none => return .place none
  | r => r.perform P

/-! ## Genuine nodes -/

/-- What the node stands for is what the layers provide at its path. -/
def Genuine (s : Store) (layers : List Filesystem) (node : Node Entry) : Prop :=
  found s layers node.path = .ok (some node.offer?)

theorem Genuine.root : Genuine s layers .root := by
  rw [Genuine, found, show (Node.root : Node Entry).path = "" from rfl]
  rfl

/-- Where a genuine node leads, the node that is found there is genuine. -/
theorem Genuine.of_follow {cs : List String} {m : Node Entry} (h : Genuine s layers node)
    (hn : Path.Clean node.path) (hm : Path.Clean m.path)
    (hc : components m.path = components node.path ++ cs)
    (hf : follow s layers (components node.path) node.offer? cs = .ok (some m.offer?)) :
    Genuine s layers m := by
  rw [Genuine, found, hn.1] at h
  rw [Genuine, found, hm.1, hc, follow_append h]
  exact hf

/-- What is known of a node that the caller holds. -/
structure Known (s : Store) (layers : List Filesystem) (label : Nat → String)
    (o : Overlay Filesystem Entry) (node : Node Entry) : Prop where
  holds : Holds layers label (AsMerged s layers) o node
  genuine : Genuine s layers node

theorem Known.quiet {label' : Nat → String} {w' : Store × Overlay Filesystem Entry}
    (h : Known s layers label w.2 node) (hq : Quiet s layers label w label' w') :
    Known s layers label' w'.2 node :=
  ⟨hq.holds _ _ (asMerged s layers) h.holds, h.genuine⟩

/-- Where listings lead from a known node, there are known nodes. -/
theorem Known.leads {m : Node Entry} (h : Known s layers label w.2 node)
    (hl : Leads s layers (AsMerged s layers) w.2 node m) : Known s layers label w.2 m := by
  obtain ⟨cs, hc, hf⟩ := hl
  have hm := h.holds.of_cached hc
  exact ⟨hm, h.genuine.of_follow h.holds.sound.path hm.sound.path (h.holds.path_of_cached hc)
    (hf fun _ _ ht => ht)⟩

section
variable (hs : ∀ f ∈ layers, f.CleanTree s) (n : Nat)
include hs

/-! ## Answers -/

/-- A request is answered as expected, and what it hands out is known again. -/
theorem exec_known {r : Request Filesystem Entry} (hr : r.isReading = true)
    (hw : Over s layers w) (hroot : Known s layers label w.2 .root)
    (hnode : ∀ node ∈ r.node?, Known s layers label w.2 node) :
    ∃ res label' w', (r.perform (Store.provider (n + 1))).exec w = (res, w') ∧
      Quiet s layers label w label' w' ∧ (r.isGentle = true → Keeps w.2 w'.2) ∧
      res.map (·.map Node.offer?) = r.expected s layers ∧
      ∀ m ∈ handed res, Known s layers label' w'.2 m := by
  obtain ⟨res, label', w', he, hq, hk, hres, hleads⟩ := exec_request hs n hr (asMerged s layers) hw
    hroot.holds fun node hn => (hnode node hn).holds
  have hasked : Known s layers label w.2 (r.node?.getD .root) := by
    cases hn : r.node? with
    | none => exact hroot
    | some node => exact hnode node hn
  exact ⟨res, label', w', he, hq, hk, hres fun _ _ ht => ht,
    fun m hm => (hasked.quiet hq).leads (hleads m hm)⟩

omit hs in
theorem known_anew (s : Store) (layers : List Filesystem) (o : Overlay Filesystem Entry) :
    Known s layers (fun _ => "") (anew o) .root := ⟨holds_anew o, .root⟩

/-- A new union answers as expected, too. -/
theorem exec_renewed {r : Request Filesystem Entry} (hr : r.isReading = true)
    (hw : Over s layers w) (hnode : ∀ node ∈ r.node?, Known s layers label w.2 node) :
    ((r.renewed (Store.provider (n + 1))).exec (w.1, anew w.2)).1.map (·.map Node.offer?)
      = r.expected s layers := by
  have hw' := hw.anew
  have hroot := known_anew s layers w.2
  cases r with
  | entry path =>
      have hr : (Request.entry path).isReading = true := rfl
      obtain ⟨res, label', w', he, -, -, hres, -⟩ :=
        exec_known hs n hr hw' hroot (by simp [Request.node?])
      show (((Request.entry path).perform (Store.provider (n + 1))).exec _).1.map _ = _
      rw [he]
      exact hres
  | ask node what =>
      have hn := hnode node rfl
      obtain ⟨res, label', w', he, hq, -, hres, hcached⟩ :=
        exec_entry hs n (asMerged s layers) node.path hw' hroot.holds
      have hres := (hres (guides_merged hs fun _ => isComponent_of_mem)).trans hn.genuine
      rcases res with e | _ | m
      · cases hres
      · cases Except.ok.inj hres
      · have hoffer : m.offer? = node.offer? := Option.some.inj (Except.ok.inj hres)
        have hpath : m.path = node.path := Node.path_eq hoffer
        have hm := (hroot.quiet hq).holds.of_cached (hcached m rfl)
        obtain ⟨res', label'', w'', he', -, -, hres', -⟩ :=
          exec_ask hs n hr (asMerged s layers) hq.base hm
        simp only [Request.renewed, exec_bind, he, he']
        rw [hres' fun _ _ ht => ht, hpath, hoffer]
        rfl
  | addLayer layer => cases hr

/-! ## Runs -/

omit hs in
theorem Quiet.world {label' : Nat → String} {w' : Store × Overlay Filesystem Entry} {t : Store}
    (h : Quiet s layers label w label' w') (ht : w'.1.SameTrees t) :
    Quiet s layers label w label' (t, w'.2) :=
  { h with base := { h.base with trees := h.base.trees.trans ht } }

/-- Whatever is read, what the caller holds stays known; and if nothing else was done, clean
listings stay as they are. -/
theorem Reaches.known {allowed : Store × Overlay Filesystem Entry → Request Filesystem Entry → Prop}
    {held held' : List (Node Entry)} {w' : Store × Overlay Filesystem Entry}
    (h : Reaches (Store.provider (n + 1)) Store.SameTrees allowed held w held' w')
    (hall : ∀ w r, allowed w r → r.isReading = true) (hw : Over s layers w)
    (hroot : .root ∈ held) (hk : ∀ node ∈ held, Known s layers label w.2 node) :
    ∃ label', Quiet s layers label w label' w' ∧ .root ∈ held' ∧
      (∀ node ∈ held', Known s layers label' w'.2 node) ∧
      ((∀ w r, allowed w r → r.isGentle = true) → Keeps w.2 w'.2) := by
  induction h with
  | start => exact ⟨label, .refl hw, hroot, hk, fun _ => .refl _⟩
  | world _ ht ih =>
      obtain ⟨label', hq, hroot', hk', hkeeps⟩ := ih
      exact ⟨label', hq.world ht, hroot', hk', hkeeps⟩
  | request r _ hr ha ih =>
      obtain ⟨label₁, hq₁, hroot₁, hk₁, hkeeps₁⟩ := ih
      obtain ⟨res, label', w', he, hq, hkeeps, -, hnew⟩ :=
        exec_known hs n (hall _ r ha) hq₁.base (hk₁ _ hroot₁) fun node hn => hk₁ node (hr node hn)
      rw [he]
      refine ⟨label', hq₁.trans hq, List.mem_append_left _ hroot₁, ?_, ?_⟩
      · intro node hn
        rcases List.mem_append.mp hn with hn | hn
        · exact (hk₁ node hn).quiet hq
        · exact hnew node hn
      · intro hg
        exact (hkeeps₁ hg).trans (hkeeps (hg _ r ha))

omit hs in
/-- Whatever is read of a new union, what the caller holds is known. -/
theorem Reaches.known_of_new {n : Nat} {policy : Policy} {s₀ : Store} {held : List (Node Entry)}
    (h : Reaches (Store.provider (n + 1)) Store.SameTrees (fun _ r => r.isReading = true) [.root]
      (s₀, { layers := layers, policy := policy }) held w) (hs₀ : ∀ f ∈ layers, f.CleanTree s₀) :
    ∃ label, Over s₀ layers w ∧ .root ∈ held ∧ ∀ node ∈ held, Known s₀ layers label w.2 node := by
  have hstart : Over s₀ layers (s₀, ({ layers := layers, policy := policy } : Overlay _ _)) :=
    ⟨.refl s₀, rfl, rfl, rfl⟩
  obtain ⟨label, hq, hroot, hknown, -⟩ := h.known hs₀ n (fun _ _ hr => hr) hstart (by simp)
    (fun node hn => by
      obtain rfl := List.mem_singleton.mp hn
      exact known_anew s₀ layers { layers := layers, policy := policy })
  exact ⟨label, hq.base, hroot, hknown⟩

/-! ## What a step asks of the layers -/

/-- The worlds after one step at a node: after a name was looked up in it, or it was listed. -/
inductive StepAt (P : Provider Store Filesystem Entry Stream) (node : Node Entry)
    (w : Store × Overlay Filesystem Entry) : Store × Overlay Filesystem Entry → Prop
  | lookup (name : String) : StepAt P node w ((listedChild P node name).exec w).2
  | list : StepAt P node w ((children P node).exec w).2

omit hs in
theorem probedLists_congr {s' : Store} (h : s.SameTrees s') (path : String) (probe : Nat) :
    probedLists s' layers path probe = probedLists s layers path probe := by
  rw [probedLists, probedLists, show lists s' path = lists s path from funext (lists_congr h path)]

omit hs in
theorem probedLists_of_unreadable (h : (layers.any fun f => f.canRead s) ≠ true) (path : String)
    (probe : Nat) : probedLists s layers path probe = 0 := by
  have : layers.filter (lists s path) = [] := by
    refine List.filter_eq_nil_iff.mpr fun f hf hl => h ?_
    rw [lists, Bool.and_eq_true] at hl
    exact List.any_eq_true.mpr ⟨f, hf, hl.1⟩
  rw [probedLists, this]
  rfl

/-- A step on a clean listing changes nothing.  A step on a dirty one asks each layer that can read
and has the directory once. -/
theorem StepAt.cost {w' : Store × Overlay Filesystem Entry} (hw : Over s layers w)
    (h : Sound layers label (AsMerged s layers) w.2 node)
    (hd : (kindAt s node.offer?).isDirectory = true)
    (hstep : StepAt (Store.provider (n + 1)) node w w') :
    ((w.2.listing node.slot).dirty = false → w' = w) ∧
    ((w.2.listing node.slot).dirty = true → ∀ p < w.1.probes.size,
      (w'.1.probe p).lists = (w.1.probe p).lists + probedLists s layers node.path p) := by
  obtain ⟨-, t, he, -, -, -, ht⟩ := exec_listed hs n hw h
  have hlisted : ((w.2.listing node.slot).dirty = false → t = w) ∧
      ((w.2.listing node.slot).dirty = true → ∀ p < w.1.probes.size,
        (t.1.probe p).lists = (w.1.probe p).lists + probedLists s layers node.path p) := by
    rw [ht]
    refine ⟨fun hc => by rw [hc]; rfl, fun hc p hp => ?_⟩
    rw [hc, if_pos rfl]
    exact (lists_afterMerge hp node.path).trans (by rw [probedLists_congr hw.trees])
  cases hstep with
  | lookup name => simpa only [listedChild, exec_bind, exec_pure, he] using hlisted
  | list =>
      have hread : (operations (Store.provider (n + 1)) w.2 w.1).covers (.only .read)
          = layers.any fun f => f.canRead s := operations_covers hs n hw .read
      simp only [children, exec_bind, exec_requireLive hw.live, exec_require, hread]
      by_cases hr : (layers.any fun f => f.canRead s) = true
      · simpa only [if_pos hr, exec_requireDirectory hs n hw h, if_pos hd, he, exec_pure]
          using hlisted
      · simp only [if_neg hr]
        exact ⟨fun _ => trivial, fun _ p _ => by rw [probedLists_of_unreadable hr, Nat.add_zero]⟩

/-! ## What populating saves -/

variable {held held' : List (Node Entry)} {w₁ w' : Store × Overlay Filesystem Entry}

/-- After `populate`, as long as entries and children are only looked up, listed and counted, the
directories that were listed stay so. -/
theorem still_warm (hw : Over s layers w) (hroot : .root ∈ held)
    (hknown : ∀ node ∈ held, Known s layers label w.2 node) (depth : Nat)
    (hpop : (populate (Store.provider (n + 1)) depth .root).exec w = (.ok (), w₁))
    (h : Reaches (Store.provider (n + 1)) Store.SameTrees (fun _ r => r.isGentle = true) held w₁
      held' w') :
    ∃ label', Over s layers w' ∧ .root ∈ held' ∧
      (∀ node ∈ held', Known s layers label' w'.2 node) ∧ Warm s w'.2 depth .root := by
  obtain ⟨label₁, w₂, he, hp⟩ :=
    exec_populate hs n (asMerged s layers) depth hw (hknown _ hroot).holds
  obtain rfl : w₂ = w₁ := congrArg Prod.snd (he.symm.trans hpop)
  have hknown₁ : ∀ node ∈ held, Known s layers label₁ w₂.2 node := by
    intro node hn
    exact (hknown node hn).quiet hp.quiet
  obtain ⟨label', hq, hroot', hknown', hkeeps⟩ := h.known hs n
    (fun _ r => r.isReading_of_isGentle) hp.quiet.base hroot hknown₁
  have hwarm : Warm s w₂.2 depth .root := hp.warm _ (by simp) rfl
  exact ⟨label', hq.base, hroot', hknown', hwarm.keeps (hkeeps fun _ _ hg => hg)⟩

/-- Then a directory above the depth is listed without asking. -/
theorem children_of_warm (hw : Over s layers w) (hroot : Known s layers label w.2 .root)
    (hnode : Known s layers label w.2 node) {depth : Nat} (hwarm : Warm s w.2 depth .root)
    (hlive : ((entry (Store.provider (n + 1)) node.path).exec w).1 = .ok (some node))
    (hlen : (components node.path).length < depth) :
    ((children (Store.provider (n + 1)) node).exec w).2 = w := by
  have hsound := hnode.holds.sound
  have hnorm : normalize node.path false = node.path := hsound.path.1
  obtain ⟨r, he, hbelow⟩ :=
    entry_warm hs n node.path hw hroot.holds hwarm (by rw [hnorm]; exact hlen.le)
  rw [he] at hlive
  obtain ⟨k, hk⟩ := Nat.exists_eq_add_of_lt hlen
  have hdeep : depth - (components (normalize node.path false)).length = k + 1 := by
    rw [hnorm]
    omega
  rw [hdeep] at hbelow
  obtain ⟨r', he'⟩ := children_warm hs n hw hsound (hbelow node hlive)
  rw [he']

end

/-! ## The caches cannot be seen -/

/-- While the trees stay as they are, the caches of a union cannot be seen in what it answers, only
in what it asks of its layers.

Every request that reads is answered as by a new union.  A step on a clean directory asks no layer;
one on a dirty directory asks each layer that can read and has the directory once.  After `populate`
nothing is asked for entries down to its depth and for the contents of directories above it, as long
as entries and children are looked up, listed and counted. -/
theorem cache_transparent {n : Nat} {policy : Policy} {s₀ : Store} {held : List (Node Entry)}
    (hs₀ : ∀ f ∈ layers, f.CleanTree s₀)
    (h : Reaches (Store.provider (n + 1)) Store.SameTrees (fun _ r => r.isReading = true) [.root]
      (s₀, { layers := layers, policy := policy }) held w) :
    (∀ r : Request Filesystem Entry, r.isReading = true → (∀ node ∈ r.node?, node ∈ held) →
      ((r.perform (Store.provider (n + 1))).exec w).1.map (·.map Node.offer?)
        = ((r.renewed (Store.provider (n + 1))).exec (w.1, anew w.2)).1.map (·.map Node.offer?)) ∧
    (∀ top ∈ held, ∀ names node, w.2.cached top names = some node →
      (kindAt w.1 node.offer?).isDirectory = true →
      ∀ w', StepAt (Store.provider (n + 1)) node w w' →
        ((w.2.listing node.slot).dirty = false → w' = w) ∧
        ((w.2.listing node.slot).dirty = true → ∀ p < w.1.probes.size,
          (w'.1.probe p).lists = (w.1.probe p).lists + probedLists w.1 layers node.path p)) ∧
    (∀ depth w₁, (populate (Store.provider (n + 1)) depth .root).exec w = (.ok (), w₁) →
      ∀ held' w', Reaches (Store.provider (n + 1)) Store.SameTrees (fun _ r => r.isGentle = true)
        held w₁ held' w' →
      (∀ path, (components (normalize path false)).length ≤ depth →
        ((entry (Store.provider (n + 1)) path).exec w').2 = w') ∧
      ∀ node ∈ held', ((entry (Store.provider (n + 1)) node.path).exec w').1 = .ok (some node) →
        (components node.path).length < depth →
        ((children (Store.provider (n + 1)) node).exec w').2 = w') := by
  obtain ⟨label, hw, hroot, hknown⟩ := h.known_of_new hs₀
  refine ⟨?_, ?_, ?_⟩
  · intro r hr hnode
    have hk : ∀ node ∈ r.node?, Known s₀ layers label w.2 node :=
      fun node hn => hknown node (hnode node hn)
    obtain ⟨res, -, w', he, -, -, hres, -⟩ := exec_known hs₀ n hr hw (hknown _ hroot) hk
    rw [he, hres, exec_renewed hs₀ n hr hw hk]
  · intro top htop names node hc hd w' hstep
    have hn := ((hknown top htop).holds.of_cached hc).sound
    rw [kindAt_congr hs₀ hw hn] at hd
    have := hstep.cost hs₀ n hw hn hd
    simpa only [probedLists_congr hw.trees] using this
  · intro depth w₁ hpop held' w' h'
    obtain ⟨label', hw', hroot', hknown', hwarm⟩ :=
      still_warm hs₀ n hw hroot hknown depth hpop h'
    have hr' := hknown' _ hroot'
    refine ⟨?_, ?_⟩
    · intro path hlen
      obtain ⟨r, he, -⟩ := entry_warm hs₀ n path hw' hr'.holds hwarm hlen
      rw [he]
    · intro node hn hlive hlen
      exact children_of_warm hs₀ n hw' hr' (hknown' node hn) hwarm hlive hlen

/-- A memory filesystem with a directory and a file in it, behind a probe. -/
def probedTree : Store where
  memories := #[{ tree := ⟨⟨[("", .directory .epoch), ("a", .directory .epoch),
    ("a/b", .file [] .epoch)]⟩⟩ }]
  probes := #[{}]

/-- The world of a new union over `probedTree`. -/
def probedUnion : Store × Overlay Filesystem Entry :=
  (probedTree, { layers := [.probed 0 (.memory 0)] })

theorem cache_transparent_populated :
    (∀ f ∈ [Filesystem.probed 0 (.memory 0)], f.CleanTree probedTree) ∧
    ∃ held w, Reaches (Store.provider 1) Store.SameTrees (fun _ r => r.isReading = true) [.root]
        probedUnion held w ∧ (w.1.probe 0).lists = 2 ∧
      (((Request.entry "a/b").perform (Store.provider 1)).exec w).1.map (·.map Node.offer?)
        = (((Request.entry "a/b").renewed (Store.provider 1)).exec (w.1, anew w.2)).1.map
            (·.map Node.offer?) := by
  have hs : ∀ f ∈ [Filesystem.probed 0 (.memory 0)], f.CleanTree probedTree := by decide
  have h : Reaches (Store.provider 1) Store.SameTrees (fun _ r => r.isReading = true) [.root]
      probedUnion _ _ := .request (.ask .root (.populate 2)) .start (by simp [Request.node?]) rfl
  obtain ⟨hsame, -⟩ := cache_transparent hs h
  exact ⟨hs, _, _, h, by decide, hsame (.entry "a/b") rfl (by simp [Request.node?])⟩

/-- Computing a listing anew drops the listings below it, although nothing was marked dirty: the
next look into the directory asks the layer again. -/
theorem refresh_drops_populated :
    let P := Store.provider 1
    let w₁ := ((populate P 2 .root).exec probedUnion).2
    let w₂ := ((refresh P .root).exec w₁).2
    ((populate P 2 .root).exec probedUnion).1 = .ok () ∧
      (((entry P "a/b").exec w₁).2.1.probe 0).lists = (w₁.1.probe 0).lists ∧
      (((entry P "a/b").exec w₂).2.1.probe 0).lists = (w₂.1.probe 0).lists + 1 :=
  ⟨rfl, by decide, by decide⟩

end Strata.Overlay
