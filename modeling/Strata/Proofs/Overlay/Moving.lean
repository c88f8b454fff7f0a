/-
# `Strata.Proofs.Overlay.Moving` — what a union answers after it moved an entry

Moving an entry changes two places of its layer: the place where it was, and the
first part of the target that the layer did not have.  The union marks the
directory of the first as dirty and leaves the second alone.  So after the move
it answers as a new union would, except perhaps at paths that run through the
second place, and there only if its directory was listed before and is not in the
directory that the entry left, and something on the way is provided by another
layer than before (`entry_after_rename`).
-/
import Strata.Proofs.Overlay.Tidy
import Strata.Proofs.Overlay.Transparency

namespace Strata.Overlay

open Strata.Action Strata.Path

variable {n : Nat} {layers : List Filesystem} {label : Nat → String} {policy : Policy}
  {s₀ s' : Store} {held : List (Node Entry)} {w w' : Store × Overlay Filesystem Entry}
  {node : Node Entry}

/-- No listing is cached for the place of these names: clean listings do not lead there from the
root, or the listing there is dirty. -/
def Unlisted (o : Overlay Filesystem Entry) (names : List String) : Prop :=
  ∀ m, o.cached .root names = some m → (o.listing m.slot).dirty = true

theorem Unlisted.append {o : Overlay Filesystem Entry} {names more : List String}
    (h : Unlisted o names) : Unlisted o (names ++ more) := by
  intro m hm
  obtain ⟨a, ha, hrest⟩ := cached_append.mp hm
  cases more with
  | nil =>
      obtain rfl := Option.some.inj hrest
      exact h a ha
  | cons c cs =>
      have hd := (cached_cons.mp hrest).1
      rw [h a ha] at hd
      cases hd

/-- What clean listings lead to from the root is faithful. -/
def AllFaithful (w : Store × Overlay Filesystem Entry) : Prop :=
  ∀ names m, w.2.cached .root names = some m → (w.2.listing m.slot).dirty = false →
    Faithful w.1 w.2.layers m.path (w.2.listing m.slot).offers

/-- What is known of a listing after a move: it tells what the layers hold now, or it was there
before the move and told what they held then, and is not in the place that the move marked. -/
def Mixed (w : Store × Overlay Filesystem Entry) (s' : Store) (marked : List String)
    (path : String) (table : List (String × Offer Entry)) : Prop :=
  Faithful s' w.2.layers path table ∨
    (Faithful w.1 w.2.layers path table ∧ ¬ Unlisted w.2 (components path)) ∧
      ¬ marked <+: components path

theorem holds_mixed (hroot : Holds w.2.layers label Whatever w.2 .root) (ha : AllFaithful w) :
    Holds w.2.layers label (fun path table =>
      Faithful s' w.2.layers path table ∨
        Faithful w.1 w.2.layers path table ∧ ¬ Unlisted w.2 (components path)) w.2 .root := by
  intro cs m hm
  have hpath : components m.path = cs := hroot.path_of_cached hm
  refine { hroot cs m hm with fits := fun hd => .inr ⟨ha cs m hm hd, ?_⟩ }
  intro hu
  rw [hu m (hpath.symm ▸ hm)] at hd
  cases hd

/-- Mixed listings guide along a path that does not run through an old listing of the second
place. -/
theorem guides_mixed {source front marked names : List String} {x : String}
    (hs : ∀ f ∈ w.2.layers, f.CleanTree w.1) (h0 : source ≠ [])
    (hmarked : marked <+: source.dropLast)
    (hshift : w.1.Shift s' w.2.layers fun ns => source <+: ns ∨ front ++ [x] <+: ns)
    (hn : ∀ m ∈ names, IsComponent m)
    (hfront : front ++ [x] <+: names → source.dropLast <+: front ∨ Unlisted w.2 front ∨
      ∀ ns, ns <+: names →
        provided s' w.2.layers (ofNames ns) = provided w.1 w.2.layers (ofNames ns)) :
    Guides s' w.2.layers (Mixed w s' marked) names := by
  rintro pre y t hpre (hnew | ⟨⟨hold, hlisted⟩, hout⟩)
  · exact guides_faithful hn pre y t hpre hnew
  · have hcomp : ∀ m ∈ pre ++ [y], IsComponent m := fun m hm => hn m (hpre.subset hm)
    rw [components_ofNames fun m hm => hcomp m (List.mem_append_left _ hm)] at hlisted hout
    rw [guides_faithful hn pre y t hpre hold]
    by_cases hsame : ∀ ns, ns <+: names →
        provided s' w.2.layers (ofNames ns) = provided w.1 w.2.layers (ofNames ns)
    · exact (hsame _ hpre).symm
    refine (provided_shift hs hshift hcomp ?_).symm
    rintro (hsource | htarget)
    · -- the place that the entry left
      obtain ⟨qs, z, rfl⟩ := (List.eq_nil_or_concat' source).resolve_left h0
      rw [List.dropLast_concat] at hmarked
      exact hout (hmarked.trans (snoc_prefix_drop hsource))
    · -- the first part of the target that was missing
      have hin := snoc_prefix_drop htarget
      rcases hfront (htarget.trans hpre) with hleft | hu | heq
      · exact hout (hmarked.trans (hleft.trans hin))
      · obtain ⟨ks, rfl⟩ := hin
        exact hlisted hu.append
      · exact hsame heq

/-! ## After a move -/

/-- A union whose clean listings are faithful has moved an entry.  The layer of the entry has at the
target what it had at the entry, and there is a first part of the target that it did not have.  At
every path that does not run through that part the union answers as a new one does.  It does so at
the other paths, too, if the directory of that part is the one that the entry left, or lies in it,
or was not listed, or if the layers provide on the way what they did before.

The run before may do anything that keeps the trees clean. -/
theorem entry_after_rename (hs₀ : ∀ f ∈ layers, f.CleanTree s₀)
    (h : Reaches (Store.provider (n + 1)) Spares (fun w r => r.IsTidy w.1) [.root]
      (s₀, { layers := layers, policy := policy }) held w)
    (hfaithful : AllFaithful w) (hnode : node ∈ held) {target : String}
    (htarget : ∀ n ∈ components (normalize target false), IsName n)
    (hok : (rename (Store.provider (n + 1)) node target).exec w = (.ok (), w')) :
    ∃ offer f, node.offer? = some offer ∧ w.2.layers[offer.layer]? = some f ∧
      (∀ ks, (∀ k ∈ ks, IsName k) →
        (f.outline w'.1).kind (ofNames (components (normalize target false) ++ ks))
          = (f.outline w.1).kind (ofNames (components node.path ++ ks))) ∧
      ∃ front x, front ++ [x] <+: components (normalize target false) ∧
        (f.outline w.1).kind (ofNames front) = .directory ∧
        (f.outline w.1).kind (ofNames (front ++ [x])) = .unknown ∧
        ∀ path, (front ++ [x] <+: components (normalize path false) →
            (components node.path).dropLast <+: front ∨ Unlisted w.2 front ∨
              ∀ ns, ns <+: components (normalize path false) →
                provided w'.1 w.2.layers (ofNames ns) = provided w.1 w.2.layers (ofNames ns)) →
          ((entry (Store.provider (n + 1)) path).exec w').1.map (·.map Node.offer?)
            = ((entry (Store.provider (n + 1)) path).exec (w'.1, anew w'.2)).1.map
                (·.map Node.offer?) := by
  obtain ⟨label, ht⟩ := h.tidy (tidy_start hs₀)
  obtain ⟨r, w₂, he, -, hmoved⟩ :=
    exec_rename n ht.clean ht.base (ht.known _ ht.root) (ht.known node hnode).sound htarget
  obtain ⟨rfl, rfl⟩ := Prod.mk.inj (he.symm.trans hok)
  obtain ⟨offer, f, s', hoffer, hf, hren, label₁, w₁, marked, m, hq, -, hmarked, hm, rfl⟩ :=
    (hmoved rfl).moved
  obtain ⟨front, x, hpre, hdir, hgap, hshift⟩ := hren.shift
  refine ⟨offer, f, hoffer, hf, ?_, front, x, hpre, hdir, hgap, ?_⟩
  · intro ks hk
    rw [show f.outline w₁.1 = f.outline s' from Filesystem.outline_congr hq.base.trees f]
    exact hren.moved ks hk
  · intro path hpath
    have hroot := hq.holds _ _ (fun _ hp => .inl (faithful_merged hshift.clean hp))
      (holds_mixed (ht.known _ ht.root) hfaithful)
    have hover : Over s' w.2.layers (w₁.1, w₁.2.invalidate m.slot) :=
      ⟨hq.base.trees, hq.base.layers, hq.base.fold, hq.base.live⟩
    have hmark (a : Node Entry) (ha : w₁.2.cached .root marked = some a)
        (_ : (w₁.2.listing a.slot).dirty = false) : a.slot = m.slot := by
      rw [hm] at ha
      exact congrArg Node.slot (Option.some.inj ha).symm
    have hmixed : Holds w.2.layers label₁ (Mixed w s' marked) (w₁.2.invalidate m.slot) .root :=
      (hroot.shed hmark).mono fun d t _ _ hf => hf.1.imp id fun hold => ⟨hold, hf.2⟩
    simp only [provided_congr hq.base.trees] at hpath
    exact entry_eq_anew hshift.clean n (fun _ hp => .inl (faithful_merged hshift.clean hp)) path
      hover hmixed (guides_mixed ht.clean hren.inner hmarked hshift
        (fun _ => isComponent_of_mem) hpath)

/-! ## A move that is seen and one that is missed -/

/-- As long as a union is only read, its listings are faithful. -/
theorem Reaches.allFaithful (hs₀ : ∀ f ∈ layers, f.CleanTree s₀)
    (h : Reaches (Store.provider (n + 1)) Store.SameTrees (fun _ r => r.isReading = true) [.root]
      (s₀, { layers := layers, policy := policy }) held w) : AllFaithful w := by
  obtain ⟨label, hw, hroot, hknown⟩ := h.known_of_new hs₀
  intro names m hm hd
  have hs := (hknown _ hroot).holds names m hm
  have hoffers : (w.2.listing m.slot).offers = merged s₀ layers m.path := hs.fits hd
  rw [hw.layers, hoffers, ← merged_congr hw.trees]
  exact faithful_merged (fun f hf => (hs₀ f hf).congr hw.trees) hs.path

/-- The world of a new union over a memory filesystem with a file in one of its two directories. -/
def filedUnion : Store × Overlay Filesystem Entry :=
  ({ memories := #[{ tree := ⟨⟨[("", .directory .epoch), ("a", .directory .epoch),
      ("a/f", .file [] .epoch), ("b", .directory .epoch)]⟩⟩ }] }, { layers := [.memory 0] })

/-- The node of the file in `filedUnion`, once its directories were listed. -/
def filedNode : Node Entry := .entry ⟨3, ⟨"a/f", .memory 0 "a/f", 0⟩⟩

/-- That world after `filedNode` was found. -/
def filedWorld : Store × Overlay Filesystem Entry :=
  ((entry (Store.provider 1) "a/f").exec
    ((populate (Store.provider 1) 2 .root).exec filedUnion).2).2

theorem filed_reached :
    ∃ held, Reaches (Store.provider 1) Spares (fun w r => r.IsTidy w.1) [.root] filedUnion held
      filedWorld ∧ AllFaithful filedWorld ∧ filedNode ∈ held := by
  have hs : ∀ f ∈ [Filesystem.memory 0], f.CleanTree filedUnion.1 := by decide
  have h₁ : Reaches (Store.provider 1) Store.SameTrees (fun _ r => r.isReading = true) [.root]
      filedUnion _ _ := .request (.ask .root (.populate 2)) .start (by simp [Request.node?]) rfl
  have h₂ := h₁.request (.entry "a/f") (by simp [Request.node?]) rfl
  exact ⟨_, h₂.mono (fun _ _ ht _ hf => hf.congr ht) fun w r hr => r.isTidy_of_reading hr w.1,
    h₂.allFaithful hs, List.mem_append_right _ (List.mem_singleton.mpr rfl)⟩

/-- Within a directory a move is seen although everything is listed. -/
theorem entry_after_rename_within :
    ∃ held w', Reaches (Store.provider 1) Spares (fun w r => r.IsTidy w.1) [.root] filedUnion held
        filedWorld ∧
      AllFaithful filedWorld ∧ filedNode ∈ held ∧
      (rename (Store.provider 1) filedNode "a/g").exec filedWorld = (.ok (), w') ∧
      ((entry (Store.provider 1) "a/g").exec w').1.map (·.map Node.offer?)
        = ((entry (Store.provider 1) "a/g").exec (w'.1, anew w'.2)).1.map (·.map Node.offer?) := by
  have hs : ∀ f ∈ [Filesystem.memory 0], f.CleanTree filedUnion.1 := by decide
  obtain ⟨held, h, hfaithful, hnode⟩ := filed_reached
  have hname : ∀ n ∈ components (normalize "a/g" false), IsName n := by decide
  have hok : (rename (Store.provider 1) filedNode "a/g").exec filedWorld = (.ok (), _) := rfl
  obtain ⟨offer, f, hoffer, hf, -, front, x, hpre, -, hgap, hpath⟩ :=
    entry_after_rename hs h hfaithful hnode hname hok
  refine ⟨held, _, h, hfaithful, hnode, hok, hpath "a/g" fun _ => .inl ?_⟩
  obtain rfl := Option.some.inj hoffer
  obtain rfl : Filesystem.memory 0 = f := Option.some.inj hf
  -- the directory itself was there, so the first part that was missing lies in it
  rcases front with _ | ⟨c, cs⟩
  · obtain rfl : x = "a" := (List.cons_prefix_cons.mp hpre).1
    exact absurd hgap (by decide +kernel)
  · obtain rfl : c = "a" := (List.cons_prefix_cons.mp hpre).1
    exact ⟨cs, rfl⟩

/-- The listing of another directory is not marked: what is moved there is missed. -/
theorem moved_entry_missed :
    let P := Store.provider 1
    ∃ held w', Reaches P Spares (fun w r => r.IsTidy w.1) [.root] filedUnion held filedWorld ∧
      AllFaithful filedWorld ∧ filedNode ∈ held ∧
      (rename P filedNode "b/g").exec filedWorld = (.ok (), w') ∧
      ((entry P "b/g").exec w').1.toOption.map (·.map Node.path) = some none ∧
      ((entry P "b/g").exec (w'.1, anew w'.2)).1.toOption.map (·.map Node.path)
        = some (some "b/g") := by
  obtain ⟨held, h, hfaithful, hnode⟩ := filed_reached
  have hok : (rename (Store.provider 1) filedNode "b/g").exec filedWorld = (.ok (), _) := rfl
  exact ⟨held, _, h, hfaithful, hnode, hok, by decide +kernel, by decide +kernel⟩

end Strata.Overlay
