/-
# `Strata.Proofs.Overlay.Populate` — listings computed ahead

After `populate` the listings of all directories down to its depth are clean:
the node is `Warm`.  A sibling that is populated later does not disturb the ones
before it, as all it touches is its own listing and new ones.  In a warm union
looking up and listing, down to the depth, leave the whole world as it is.
-/
import Strata.Proofs.Overlay.Walk

namespace Strata.Overlay

open Strata.Action Strata.Path

variable {s : Store} {layers : List Filesystem} {label : Nat → String}
  {fits : String → List (String × Offer Entry) → Prop}
  {w : Store × Overlay Filesystem Entry} {o o' : Overlay Filesystem Entry} {node : Node Entry}

/-- The listings of the node, of the directories in it, and so on down to a depth are clean. -/
def Warm (s : Store) (o : Overlay Filesystem Entry) : Nat → Node Entry → Prop
  | 0, _ => True
  | depth + 1, node => (o.listing node.slot).dirty = false ∧
    ∀ c child, (c, child) ∈ (o.listing node.slot).children →
      (kindAt s (some child.offer)).isDirectory = true → Warm s o depth (.entry child)

theorem Warm.keeps {depth : Nat} (hk : Keeps o o') (h : Warm s o depth node) :
    Warm s o' depth node := by
  induction depth generalizing node with
  | zero => trivial
  | succ depth ih =>
      rw [Warm, hk _ h.1]
      exact ⟨h.1, fun c child hc hd => ih (h.2 c child hc hd)⟩

theorem Warm.congr {depth : Nat} (hn : Holds layers label fits o node)
    (hsame : ∀ cs m, o.cached node cs = some m → o'.listing m.slot = o.listing m.slot)
    (h : Warm s o depth node) : Warm s o' depth node := by
  induction depth generalizing node with
  | zero => trivial
  | succ depth ih =>
      rw [Warm, hsame [] node rfl]
      refine ⟨h.1, fun c child hc hd => ih (hn.child h.1 hc) ?_ (h.2 c child hc hd)⟩
      intro cs m hm
      exact hsame (c :: cs) m (cached_cons.mpr ⟨h.1, child, hn.sound.lookup_of_mem h.1 hc, hm⟩)

/-- Nodes of different paths have different slots. -/
theorem Sound.slot_ne {a b : Node Entry} (ha : Sound layers label fits o a)
    (hb : Sound layers label fits o b) (h : a.path ≠ b.path) : a.slot ≠ b.slot :=
  fun he => h (by rw [← ha.label, he, hb.label])

section
variable (hs : ∀ f ∈ layers, f.CleanTree s) (n : Nat)
include hs

/-- What populating these nodes leaves behind: nothing but their own listings and new ones change,
and the directories among them are warm. -/
structure Populated (s : Store) (layers : List Filesystem) (label : Nat → String)
    (w : Store × Overlay Filesystem Entry) (label' : Nat → String)
    (w' : Store × Overlay Filesystem Entry) (depth : Nat) (nodes : List (Node Entry)) : Prop where
  quiet : Quiet s layers label w label' w'
  frame : ∀ j < w.2.listings.size, (∀ node ∈ nodes, j ≠ node.slot) →
    w'.2.listing j = w.2.listing j
  warm : ∀ node ∈ nodes, (kindAt s node.offer?).isDirectory = true → Warm s w'.2 depth node

omit hs in
/-- Children that are visited one after the other are all warm in the end. -/
theorem exec_forM_children (hm : ∀ d, Path.Clean d → fits d (merged s layers d)) {depth : Nat}
    {visit : String × Child Entry → Call Store Filesystem Entry PUnit}
    (hv : ∀ (label : Nat → String) (w : Store × Overlay Filesystem Entry)
      (c : String × Child Entry), Over s layers w → Holds layers label fits w.2 (.entry c.2) →
      ∃ label' w', (visit c).exec w = (.ok ⟨⟩, w') ∧
        Populated s layers label w label' w' depth [.entry c.2])
    (cs : List (String × Child Entry)) (hcs : (cs.map (·.1)).Nodup) (hw : Over s layers w)
    (h : Holds layers label fits w.2 node) (hd : (w.2.listing node.slot).dirty = false)
    (hmem : ∀ c ∈ cs, c ∈ (w.2.listing node.slot).children) :
    ∃ label' w', (cs.forM visit).exec w = (.ok ⟨⟩, w') ∧
      Populated s layers label w label' w' depth (cs.map fun c => .entry c.2) := by
  induction cs generalizing label w with
  | nil => exact ⟨label, w, rfl, .refl hw, fun _ _ _ => rfl, fun m hm => absurd hm List.not_mem_nil⟩
  | cons c cs ih =>
      obtain ⟨hnot, hnodup⟩ := List.nodup_cons.mp hcs
      have hc := h.sound.cached_of_mem hd (hmem c (by simp))
      obtain ⟨label₁, w₁, he₁, hp₁⟩ := hv label w c hw (h.of_cached hc)
      have h₁ := hp₁.quiet.holds fits node hm h
      -- the node is no child of its own, so its listing is still there
      have hne : node.slot ≠ (Node.entry c.2).slot := by
        refine h.sound.slot_ne (h.of_cached hc).sound ?_
        intro he
        have := h.path_of_cached hc
        rw [← he] at this
        simp at this
      have hsame : w₁.2.listing node.slot = w.2.listing node.slot :=
        hp₁.frame _ h.sound.slot (by simpa using hne)
      have hd₁ : (w₁.2.listing node.slot).dirty = false := by rw [hsame]; exact hd
      have hmem₁ : ∀ x ∈ c :: cs, x ∈ (w₁.2.listing node.slot).children := by
        rw [hsame]; exact hmem
      obtain ⟨label', w', he', hp'⟩ := ih hnodup hp₁.quiet.base h₁ hd₁
        fun x hx => hmem₁ x (List.mem_cons_of_mem _ hx)
      refine ⟨label', w', ?_, hp₁.quiet.trans hp'.quiet, ?_, ?_⟩
      · rw [List.forM_eq_forM, List.forM_cons]
        simp only [exec_bind, he₁]
        exact he'
      · intro j hj hnj
        rw [List.map_cons, List.forall_mem_cons] at hnj
        rw [hp'.frame j (hj.trans_le hp₁.quiet.size) hnj.2, hp₁.frame j hj (by simpa using hnj.1)]
      · intro m hm' hdir
        rcases List.mem_cons.mp hm' with rfl | hm'
        · have hc₁ := h₁.sound.cached_of_mem hd₁ (hmem₁ c (by simp))
          refine (hp₁.warm _ (by simp) hdir).congr (h₁.of_cached hc₁) fun ds x hx => ?_
          -- what lies in this child has another path than the children after it
          have hx := cached_append.mpr ⟨_, hc₁, hx⟩
          refine hp'.frame _ (h₁ _ _ hx).slot ?_
          intro y hy
          obtain ⟨c', hc', rfl⟩ := List.mem_map.mp hy
          have hy := h₁.sound.cached_of_mem hd₁ (hmem₁ c' (List.mem_cons_of_mem _ hc'))
          refine (h₁ _ _ hx).slot_ne (h₁ _ _ hy) ?_
          intro he
          have := h₁.path_of_cached hx
          rw [he, h₁.path_of_cached hy] at this
          simp only [List.cons_append, List.append_cancel_left_eq, List.cons.injEq] at this
          exact hnot (List.mem_map.mpr ⟨c', hc', this.1⟩)
        · exact hp'.warm m hm' hdir

/-- A directory is warm after it was populated. -/
theorem exec_populate (hm : ∀ d, Path.Clean d → fits d (merged s layers d)) (depth : Nat)
    (hw : Over s layers w) (h : Holds layers label fits w.2 node) :
    ∃ label' w', (populate (Store.provider (n + 1)) depth node).exec w = (.ok (), w') ∧
      Populated s layers label w label' w' depth [node] := by
  induction depth generalizing label w node with
  | zero => exact ⟨label, w, rfl, .refl hw, fun _ _ _ => rfl, fun _ _ _ => trivial⟩
  | succ depth ih =>
      have hv (label : Nat → String) (w : Store × Overlay Filesystem Entry)
          (c : String × Child Entry) (hw : Over s layers w)
          (hc : Holds layers label fits w.2 (.entry c.2)) :
          ∃ label' w', (do
              if ((Store.provider (n + 1)).kind c.2.offer.source (← get).1).isDirectory then
                populate (Store.provider (n + 1)) depth (.entry c.2) :
              Call Store Filesystem Entry PUnit).exec w = (.ok ⟨⟩, w') ∧
            Populated s layers label w label' w' depth [.entry c.2] := by
        have hkind : (Store.provider (n + 1)).kind c.2.offer.source w.1
            = kindAt s (some c.2.offer) := kind_eq_kindAt hs n hw hc.sound
        simp only [exec_bind, exec_get, exec_ite, hkind]
        by_cases hdir : (kindAt s (some c.2.offer)).isDirectory = true
        · simp only [if_pos hdir]
          exact ih hw hc
        · simp only [if_neg hdir, exec_pure]
          refine ⟨label, w, rfl, .refl hw, fun _ _ _ => rfl, ?_⟩
          intro m hm hd
          obtain rfl := List.mem_singleton.mp hm
          exact absurd hd hdir
      have hq := quiet_scan hs hw h.sound
      have h₁ := hq.holds fits node hm h
      have hlist (j : Nat) := listing_install w.2 (merged s layers node.path) h.sound.slot j
      have hd : ((w.2.install node.slot (merged s layers node.path)).listing node.slot).dirty
          = false := by rw [hlist, if_pos rfl]
      have hnodup := (h₁.sound.made hd).nodup
      rw [Listing.offers, List.map_map] at hnodup
      rw [populate]
      simp only [exec_bind, exec_requireLive hw.live, exec_scan hs n hw h.sound, exec_current]
      obtain ⟨label', w', he, hp⟩ :=
        exec_forM_children hm hv _ hnodup hq.base h₁ hd fun _ hc => hc
      -- none of the children was there before
      have hnew : ∀ c ∈ ((w.2.install node.slot (merged s layers node.path)).listing
          node.slot).children, w.2.listings.size ≤ c.2.slot := by
        rw [hlist, if_pos rfl]
        exact fun c hc => (getElem?_of_mem_assignSlots hc).1
      have hframe (j : Nat) (hj : j < w.2.listings.size) :
          w'.2.listing j
            = (w.2.install node.slot (merged s layers node.path)).listing j := by
        refine hp.frame j (hj.trans_le hq.size) ?_
        intro m hm
        obtain ⟨c, hc, rfl⟩ := List.mem_map.mp hm
        exact (hj.trans_le (hnew c hc)).ne
      refine ⟨label', w', he, hq.trans hp.quiet, ?_, ?_⟩
      · intro j hj hnj
        rw [hframe j hj, hlist, if_neg (hnj node (by simp))]
      · intro m hm' _
        obtain rfl := List.mem_singleton.mp hm'
        rw [Warm, hframe _ h.sound.slot]
        exact ⟨hd, fun c child hc hdir => hp.warm _ (List.mem_map.mpr ⟨_, hc, rfl⟩) hdir⟩

/-! ## Calls in a warm union -/

theorem descend_warm {depth : Nat} {rest : List String} (hw : Over s layers w)
    (h : Holds layers label fits w.2 node) (hlen : rest.length ≤ depth)
    (hwarm : (kindAt s node.offer?).isDirectory = true → Warm s w.2 depth node) :
    ∃ r, (descend (Store.provider (n + 1)) node rest).exec w = (r, w) ∧
      ∀ m, r = .ok (some m) → (kindAt s m.offer?).isDirectory = true →
        Warm s w.2 (depth - rest.length) m := by
  induction rest generalizing node depth with
  | nil =>
      refine ⟨.ok (some node), rfl, ?_⟩
      intro m hr hdir
      obtain rfl := Option.some.inj (Except.ok.inj hr)
      exact hwarm hdir
  | cons c rest ih =>
      rw [descend]
      simp only [exec_bind, exec_requireDirectory hs n hw h.sound]
      cases hk : (kindAt s node.offer?).isDirectory with
      | false => exact ⟨_, rfl, fun m hr => by cases hr⟩
      | true =>
          obtain ⟨depth, rfl⟩ := Nat.exists_eq_add_of_lt (Nat.lt_of_lt_of_le (Nat.succ_pos _) hlen)
          rw [Nat.zero_add] at hwarm hlen ⊢
          obtain ⟨hd, hbelow⟩ := hwarm hk
          obtain ⟨label', w', he, -, -, -, hw'⟩ := exec_listed hs n hw h.sound
          rw [hd] at hw'
          obtain rfl : w' = w := hw'
          simp only [if_true, listedChild, exec_bind, exec_pure, he]
          cases hc : (w'.2.listing node.slot).children.lookup c with
          | none => exact ⟨.ok none, rfl, fun m hr => by cases hr⟩
          | some child =>
              have hmem := mem_of_lookup hc
              have := ih (h.child hd hmem) (Nat.le_of_succ_le_succ hlen) (hbelow c child hmem)
              simpa using this

/-- In a warm union the entry at a path that is not too deep is there already. -/
theorem entry_warm {depth : Nat} (path : String) (hw : Over s layers w)
    (h : Holds layers label fits w.2 .root) (hwarm : Warm s w.2 depth .root)
    (hlen : (components (normalize path false)).length ≤ depth) :
    ∃ r, (entry (Store.provider (n + 1)) path).exec w = (r, w) ∧
      ∀ m, r = .ok (some m) → (kindAt s m.offer?).isDirectory = true →
        Warm s w.2 (depth - (components (normalize path false)).length) m := by
  rw [entry]
  simp only [exec_bind, exec_current, hw.fold, exec_ite, exec_pure, String.isEmpty_iff]
  by_cases h0 : normalize path false = ""
  · rw [if_pos h0, h0]
    refine ⟨.ok (some .root), rfl, ?_⟩
    intro m hr _
    obtain rfl := Option.some.inj (Except.ok.inj hr)
    exact hwarm
  · have hne := components_normalize_ne_nil h0
    obtain ⟨c, cs, hc⟩ := List.exists_cons_of_ne_nil hne
    rw [if_neg h0, lookup, hc]
    simp only [exec_bind, exec_requireLive hw.live, exec_requireDirectory hs n hw h.sound]
    exact descend_warm hs n hw h (hc ▸ hlen) fun _ => hwarm

/-- The entries of a warm directory are there already. -/
theorem children_warm {depth : Nat} (hw : Over s layers w) (h : Sound layers label fits w.2 node)
    (hwarm : (kindAt s node.offer?).isDirectory = true → Warm s w.2 (depth + 1) node) :
    ∃ r, (children (Store.provider (n + 1)) node).exec w = (r, w) := by
  rw [children]
  simp only [exec_bind, exec_requireLive hw.live, exec_require]
  by_cases hr : (operations (Store.provider (n + 1)) w.2 w.1).covers (.only .read) = true
  · simp only [if_pos hr, exec_requireDirectory hs n hw h]
    cases hk : (kindAt s node.offer?).isDirectory with
    | false => exact ⟨_, rfl⟩
    | true =>
        simp only [if_true, listed, exec_bind, exec_current, (hwarm hk).1, Bool.false_eq_true,
          if_false]
        exact ⟨_, rfl⟩
  · simp only [if_neg hr]
    exact ⟨_, rfl⟩

end

end Strata.Overlay
