/-
# `Strata.Proofs.Overlay.Tidy` — runs in which all trees stay clean

A request is tidy if the names that it hands on to the layers have no blanks
around them.  Tidy requests keep the trees of the layers clean, and of every node
that the caller holds it stays known that it is a layer's handle on its path
(`Tidy.request`).

Whether the listings still tell what the layers hold is another matter.  A union
is `Coherent` if those do that clean listings lead to from the root.  Reading
keeps it coherent; so does a change in one directory that is noted at the node
that the root leads to there, if it leads to one.  Where a change is noted at
another node, what it touches is lost, and the union stays coherent elsewhere.
-/
import Strata.Proofs.Overlay.Changes
import Strata.Proofs.Overlay.Readings

namespace Strata.Overlay

open Strata.Action Strata.Path

variable {label label' label'' : Nat → String} {held : List (Node Entry)}
  {w w' w'' : Store × Overlay Filesystem Entry} {node : Node Entry}

/-! ## Tidy requests -/

/-- The names that what is asked hands on to the layers. -/
def Ask.names : Ask → List String
  | .delete name | .create _ name => components (normalize name false)
  | .rename target => components (normalize target false)
  | _ => []

/-- The request hands no name with blanks around it on to the layers, and adds a layer only with a
clean tree. -/
def Request.IsTidy (s : Store) : Request Filesystem Entry → Prop
  | .entry _ => True
  | .ask _ what => ∀ n ∈ what.names, IsName n
  | .addLayer f => f.CleanTree s

theorem Request.isTidy_of_reading {r : Request Filesystem Entry} (hr : r.isReading = true)
    (s : Store) : r.IsTidy s := by
  cases r with
  | entry path => trivial
  | addLayer f => cases hr
  | ask node what =>
      intro n hn
      cases what with
      | delete name => cases hr
      | create kind name => cases hr
      | rename target => cases hr
      | _ => exact absurd hn List.not_mem_nil

/-- The trees are clean, the union tells case apart and lives, and every node that the caller holds
is a layer's handle on its path. -/
structure Tidy (label : Nat → String) (held : List (Node Entry))
    (w : Store × Overlay Filesystem Entry) : Prop where
  clean : ∀ f ∈ w.2.layers, f.CleanTree w.1
  base : Over w.1 w.2.layers w
  root : .root ∈ held
  known : ∀ node ∈ held, Holds w.2.layers label Whatever w.2 node

theorem tidy_start {s : Store} {layers : List Filesystem} {policy : Policy}
    (hs : ∀ f ∈ layers, f.CleanTree s) :
    Tidy (fun _ => "") [.root] (s, { layers := layers, policy := policy }) where
  clean := hs
  base := ⟨.refl s, rfl, rfl, rfl⟩
  root := by simp
  known node hn := by
    obtain rfl := List.mem_singleton.mp hn
    exact holds_root Nat.zero_lt_one rfl rfl

/-- What a request leaves behind of what was known, and what is known of the nodes that it hands
out. -/
structure Next (label : Nat → String) (w : Store × Overlay Filesystem Entry)
    (label' : Nat → String) (w' : Store × Overlay Filesystem Entry) (new : List (Node Entry)) :
    Prop where
  clean : ∀ f ∈ w'.2.layers, f.CleanTree w'.1
  base : Over w'.1 w'.2.layers w'
  kept : ∀ node, Holds w.2.layers label Whatever w.2 node →
    Holds w'.2.layers label' Whatever w'.2 node
  new : ∀ m ∈ new, Holds w'.2.layers label' Whatever w'.2 m

theorem Next.trans {new : List (Node Entry)} (h : Next label w label' w' [])
    (h' : Next label' w' label'' w'' new) : Next label w label'' w'' new :=
  ⟨h'.clean, h'.base, fun node hn => h'.kept node (h.kept node hn), h'.new⟩

theorem Tidy.next {new : List (Node Entry)} (h : Tidy label held w)
    (hn : Next label w label' w' new) : Tidy label' (held ++ new) w' where
  clean := hn.clean
  base := hn.base
  root := List.mem_append_left _ h.root
  known node hm := (List.mem_append.mp hm).elim (fun hm => hn.kept node (h.known node hm))
    (hn.new node)

/-! ## Coherent unions -/

/-- The path of the names is lost, or lies below a lost one. -/
def Lost (lost : List String → Prop) (names : List String) : Prop :=
  ∃ top, lost top ∧ top <+: names

/-- Each name of the listing of a path leads to what the layers provide there, or is lost. -/
def FaithfulBut (lost : List String → Prop) (s : Store) (layers : List Filesystem) (path : String)
    (table : List (String × Offer Entry)) : Prop :=
  ∀ x, IsComponent x → Lost lost (components path ++ [x]) ∨
    table.lookup x = provided s layers (ofNames (components path ++ [x]))

/-- Every clean listing that clean listings lead to from the root is faithful, but for the lost
paths. -/
def Coherent (lost : List String → Prop) (label : Nat → String)
    (w : Store × Overlay Filesystem Entry) : Prop :=
  Holds w.2.layers label (FaithfulBut lost w.1 w.2.layers) w.2 .root

/-- If clean listings lead from the root to the path of the node and the listing there is clean,
too, then it is the listing of the node. -/
def Current (o : Overlay Filesystem Entry) (node : Node Entry) : Prop :=
  ∀ m, o.cached .root (components node.path) = some m → (o.listing m.slot).dirty = false →
    m.slot = node.slot

/-- The node is current, or else the first of the names leads to a lost path. -/
def CurrentOrLost (lost : List String → Prop) (o : Overlay Filesystem Entry) (node : Node Entry)
    (names : List String) : Prop :=
  Current o node ∨ ∀ x ∈ names.head?, Lost lost (components node.path ++ [x])

/-- The request changes layers through a current node only, or where the first of its names leads
to a lost path, and neither moves anything nor adds a layer. -/
def Request.IsCurrent (lost : List String → Prop) (o : Overlay Filesystem Entry) :
    Request Filesystem Entry → Prop
  | .ask node (.create _ name) | .ask node (.delete name) =>
    CurrentOrLost lost o node (components (normalize name false))
  | .ask _ (.rename _) | .addLayer _ => False
  | _ => True

variable {lost : List String → Prop}

section
variable {s s' : Store} {layers : List Filesystem} {o o' : Overlay Filesystem Entry}
  {fits : String → List (String × Offer Entry) → Prop}

theorem snoc_prefix_drop {α : Type} {as bs : List α} {a b : α}
    (h : as ++ [a] <+: bs ++ [b]) : as <+: bs := by
  refine List.prefix_of_prefix_length_le ((List.prefix_append as [a]).trans h)
    (List.prefix_append bs [b]) ?_
  simpa using h.length_le

theorem FaithfulBut.shift {touched : List String → Prop} {path : String}
    {table : List (String × Offer Entry)} (hs : ∀ f ∈ layers, f.CleanTree s)
    (hshift : s.Shift s' layers touched) (hf : FaithfulBut lost s layers path table)
    (ht : ∀ x, touched (components path ++ [x]) → Lost lost (components path ++ [x])) :
    FaithfulBut lost s' layers path table := by
  intro x hx
  by_cases htouched : touched (components path ++ [x])
  · exact .inl (ht x htouched)
  · rcases hf x hx with hl | he
    · exact .inl hl
    · have hc : ∀ m ∈ components path ++ [x], IsComponent m :=
        forall_mem_snoc (fun _ => isComponent_of_mem) hx
      exact .inr (he.trans (provided_shift hs hshift hc htouched).symm)

theorem faithfulBut_merged (hs : ∀ f ∈ layers, f.CleanTree s) {path : String}
    (hp : Path.Clean path) : FaithfulBut lost s layers path (merged s layers path) :=
  fun x hx => .inr (faithful_merged hs hp x hx)

/-- A union stays coherent if the layers change at lost paths only. -/
theorem Holds.change_lost {touched : List String → Prop} (hs : ∀ f ∈ layers, f.CleanTree s)
    (h : Holds layers label (FaithfulBut lost s layers) o .root)
    (hshift : s.Shift s' layers touched) (ht : ∀ ns, touched ns → Lost lost ns) :
    Holds layers label (FaithfulBut lost s' layers) o .root :=
  h.mono fun _ _ _ _ hf => hf.shift hs hshift fun _ => ht _

/-- A union stays coherent if the layers change in one directory and the listing there, if it is
clean, is marked as dirty. -/
theorem Holds.change_current {names : List String} (hs : ∀ f ∈ layers, f.CleanTree s)
    (h : Holds layers label (FaithfulBut lost s layers) o .root)
    (hshift : s.Shift s' layers (Memory.Through (components node.path) names))
    (hc : Current o node) :
    Holds layers label (FaithfulBut lost s' layers) (o.invalidate node.slot) .root := by
  refine (h.shed hc).mono ?_
  intro d t _ _ hf
  refine hf.1.shift hs hshift ?_
  rintro x ⟨y, -, hpre⟩
  exact absurd (snoc_prefix_drop hpre) hf.2

theorem lost_of_through {top names ns : List String}
    (hl : ∀ x ∈ names.head?, Lost lost (top ++ [x])) (h : Memory.Through top names ns) :
    Lost lost ns := by
  obtain ⟨x, hx, hpre⟩ := h
  obtain ⟨front, hfront, hin⟩ := hl x hx
  exact ⟨front, hfront, hin.trans hpre⟩

/-- A walk that lists nothing but the node and what is below it makes no new way to it. -/
theorem Holds.cached_of_within {a : Node Entry} (h : Holds layers label fits o .root)
    (hlabel : label node.slot = node.path) (hin : Within label node o o')
    (hc : o'.cached .root (components node.path) = some a) :
    o.cached .root (components node.path) = some a := by
  have key (b : Node Entry) (cs : List String) (hb : Holds layers label fits o b)
      (hpath : components b.path ++ cs = components node.path) (hc : o'.cached b cs = some a) :
      o.cached b cs = some a := by
    induction cs generalizing b with
    | nil => exact hc
    | cons c cs ih =>
        have hshort : (components b.path).length < (components node.path).length := by
          rw [← hpath]
          simp
        have hsame : o'.listing b.slot = o.listing b.slot := by
          refine hin _ hb.sound.slot ?_ ?_
          · intro he
            rw [← hlabel, ← he, hb.sound.label] at hshort
            exact hshort.false
          · intro hbelow
            obtain ⟨ms, -, hms⟩ := hbelow
            rw [hb.sound.label] at hms
            rw [hms, List.length_append] at hshort
            omega
        obtain ⟨hd, child, hl, hn⟩ := cached_cons.mp hc
        rw [hsame] at hd hl
        have hat : o.cached b [c] = some (.entry child) :=
          cached_cons.mpr ⟨hd, child, hl, cached_nil _ _⟩
        have hpath' : components (Node.entry child).path ++ cs = components node.path := by
          rw [hb.path_of_cached hat, ← hpath]
          simp
        exact cached_cons.mpr ⟨hd, child, hl, ih _ (hb.of_cached hat) hpath' hn⟩
  exact key .root _ h rfl hc

theorem Current.within (h : Holds layers label fits o .root)
    (hlabel : label node.slot = node.path) (hc : Current o node) (hin : Within label node o o') :
    Current o' node := by
  intro a ha hd
  have hat := h.cached_of_within hlabel hin ha
  have hs := h _ _ hat
  by_contra hne
  refine hne (hc a hat ?_)
  rwa [← hin _ hs.slot hne fun hbelow => ?_]
  -- what clean listings lead to along the path has that path
  obtain ⟨ms, hms, heq⟩ := hbelow
  rw [hs.label, h.path_of_cached hat] at heq
  exact hms (List.append_right_eq_self.mp heq.symm)

/-- Where a node is current, so is what clean listings lead to from it. -/
theorem Current.descend {names : List String} {m : Node Entry} (hc : Current o node)
    (hm : o.cached node names = some m)
    (hpath : components m.path = components node.path ++ names) : Current o m := by
  cases names with
  | nil =>
      obtain rfl := Option.some.inj hm
      exact hc
  | cons c cs =>
      intro a ha _
      rw [hpath] at ha
      obtain ⟨b, hb, hba⟩ := cached_append.mp ha
      -- the listing in between is clean, so it is the one of the node
      have hslot := hc b hb (cached_cons.mp hba).1
      rw [cached, hslot] at hba
      rw [cached, hba] at hm
      exact congrArg Node.slot (Option.some.inj hm)

end

/-! ## What each request leaves behind -/

theorem Quiet.next {new : List (Node Entry)} (hs : ∀ f ∈ w.2.layers, f.CleanTree w.1)
    (hq : Quiet w.1 w.2.layers label w label' w')
    (hnew : ∀ m ∈ new, Holds w.2.layers label' Whatever w'.2 m) : Next label w label' w' new where
  clean f hf := (hs f (hq.base.layers ▸ hf)).congr hq.base.trees
  base := ⟨.refl _, rfl, hq.base.fold, hq.base.live⟩
  kept _ hn := hq.base.layers ▸ hq.holds _ _ (fun _ _ => trivial) hn
  new m hm := hq.base.layers ▸ hnew m hm

theorem Quiet.coherent (hs : ∀ f ∈ w.2.layers, f.CleanTree w.1)
    (hq : Quiet w.1 w.2.layers label w label' w') (hc : Coherent lost label w) :
    Coherent lost label' w' := by
  rw [Coherent, hq.base.layers]
  have hsame := hq.base.trees.shift hs fun _ => False
  have hc := hq.holds _ _ (fun _ hp => faithfulBut_merged hs hp) hc
  exact Holds.change_lost hs hc hsame fun _ => False.elim

theorem Holds.noted {layers : List Filesystem} {o : Overlay Filesystem Entry}
    {fits : String → List (String × Offer Entry) → Prop} (h : Holds layers label fits o node)
    (slot : Nat) : Holds layers label fits (o.noted slot) node := by
  rw [Overlay.noted]
  split
  · exact h.invalidate slot
  · exact h

theorem Over.next {s' : Store} {touched : List String → Prop} (hw : Over w.1 w.2.layers w)
    (hshift : w.1.Shift s' w.2.layers touched) (slot : Nat) :
    Next label w label (s', w.2.noted slot) [] where
  clean := by
    rw [layers_noted]
    exact hshift.clean
  base := by
    rw [layers_noted]
    exact (hw.changed s').noted slot
  kept node hn := by
    rw [layers_noted]
    exact hn.noted slot
  new := List.forall_mem_nil _

section
variable (h : Tidy label held w) (n : Nat)
include h

theorem Tidy.stay : Next label w label w [] :=
  ⟨h.clean, h.base, fun _ hn => hn, by simp⟩

theorem Tidy.next_reading {r : Request Filesystem Entry} (hr : r.isReading = true)
    (hnode : ∀ node ∈ r.node?, node ∈ held) :
    ∃ res label' w', (r.perform (Store.provider (n + 1))).exec w = (res, w') ∧
      Next label w label' w' (handed res) ∧ (Coherent lost label w → Coherent lost label' w') := by
  have hasked : Holds w.2.layers label Whatever w.2 (r.node?.getD .root) := by
    cases hn : r.node? with
    | none => exact h.known _ h.root
    | some node => exact h.known node (hnode node hn)
  obtain ⟨res, label', w', he, hq, -, -, hleads⟩ := exec_request h.clean n hr
    (fun _ _ => trivial) h.base (h.known _ h.root) fun node hn => h.known node (hnode node hn)
  refine ⟨res, label', w', he, hq.next h.clean ?_, hq.coherent h.clean⟩
  intro m hm
  obtain ⟨cs, hc, -⟩ := hleads m hm
  exact (hq.holds _ _ (fun _ _ => trivial) hasked).of_cached hc

theorem Tidy.next_create (hm : node ∈ held) (kind : Kind) {name : String}
    (hname : ∀ n ∈ components (normalize name false), IsName n) :
    ∃ res label' w', (create (Store.provider (n + 1)) node kind name).exec w = (res, w') ∧
      Next label w label' w' res.toOption.toList ∧
      (w.2.policy = .eager → CurrentOrLost lost w.2 node (components (normalize name false)) →
        Coherent lost label w → Coherent lost label' w') := by
  have hk := h.known node hm
  obtain ⟨hfailed, hmade⟩ := createdAt_create n h.clean h.base hk.sound kind hname
  generalize (create (Store.provider (n + 1)) node kind name).exec w = out at hfailed hmade
  rcases out with ⟨e | m, w'⟩
  · obtain rfl : w' = w := hfailed e rfl
    exact ⟨_, label, w', rfl, h.stay, fun _ _ hc => hc⟩
  · obtain ⟨offer, s', hp, ⟨f, hf, hsource⟩, hshift, rfl, rfl⟩ := hmade m rfl
    have hlayers : ((noted w.2 node.slot).addNode offer).2.layers = w.2.layers :=
      layers_noted w.2 node.slot
    have hover := (h.base.changed s').noted node.slot
    refine ⟨_, relabel label (noted w.2 node.slot) [("", offer)], _, rfl,
      ⟨?_, ?_, ?_, ?_⟩, ?_⟩
    · rw [hlayers]
      exact hshift.clean
    · rw [hlayers]
      exact ⟨.refl s', hlayers, hover.fold, hover.live⟩
    · intro m hm
      rw [hlayers]
      exact (hm.noted _).addNode offer
    · intro m hm
      obtain rfl := List.mem_singleton.mp hm
      rw [hlayers]
      exact holds_added hp hf hsource
    · intro heager hc hcoh
      rw [Coherent, hlayers, noted, if_pos heager]
      refine Holds.addNode ?_ offer
      rcases hc with hc | hl
      · exact Holds.change_current h.clean hcoh hshift hc
      · exact (Holds.change_lost h.clean hcoh hshift fun _ => lost_of_through hl).invalidate _

theorem Tidy.next_delete (hm : node ∈ held) {name : String}
    (hname : ∀ n ∈ components (normalize name false), IsName n) :
    ∃ res label' w', (delete (Store.provider (n + 1)) node name).exec w = (res, w') ∧
      Next label w label' w' [] ∧
      (w.2.policy = .eager → CurrentOrLost lost w.2 node (components (normalize name false)) →
        Coherent lost label w → Coherent lost label' w') := by
  have hk := h.known node hm
  obtain ⟨res, w', he, label₁, w₁, hq, -, hin, hdel⟩ :=
    exec_deleteWithin h.clean n (pieces name.toList).length hname h.base hk
  have hnext : Next label w label₁ w₁ [] := hq.next h.clean (List.forall_mem_nil _)
  refine ⟨res, label₁, w', he, ?_⟩
  rcases hdel with rfl | ⟨way, rest, m, s', hnames, hmid, hshift, rfl⟩
  · exact ⟨hnext, fun _ _ hc => hq.coherent h.clean hc⟩
  · rw [← hq.base.layers] at hshift
    refine ⟨hnext.trans (hnext.base.next hshift m.slot), ?_⟩
    intro heager hc hcoh
    have hpath := (hnext.kept node hk).path_of_cached hmid
    have hcoh := hq.coherent h.clean hcoh
    rw [Coherent, layers_noted, noted, if_pos (hq.policy.trans heager)]
    rcases hc with hc | hl
    · have hcurrent := (hc.within (h.known _ h.root) hk.sound.label hin).descend hmid hpath
      exact Holds.change_current hnext.clean hcoh hshift hcurrent
    · rw [hnames] at hl
      rw [hpath] at hshift
      exact (Holds.change_lost hnext.clean hcoh hshift fun _ ht =>
        lost_of_through hl ht.of_append).invalidate _

theorem Tidy.next_rename (hm : node ∈ held) {target : String}
    (htarget : ∀ n ∈ components (normalize target false), IsName n) :
    ∃ res label' w', (rename (Store.provider (n + 1)) node target).exec w = (res, w') ∧
      Next label w label' w' [] := by
  obtain ⟨res, w', he, herr, hok⟩ :=
    exec_rename n h.clean h.base (h.known _ h.root) (h.known node hm).sound htarget
  cases res with
  | error e => exact ⟨_, label, w', he, herr e rfl ▸ h.stay⟩
  | ok u =>
      obtain ⟨offer, f, s', -, -, hren, label₁, w₁, top, m, hq, -, -, -, rfl⟩ := (hok rfl).moved
      obtain ⟨_, _, -, -, -, hshift⟩ := hren.shift
      have hlayers : (w₁.2.invalidate m.slot).layers = w.2.layers := hq.base.layers
      refine ⟨_, label₁, _, he, ⟨?_, ?_, fun a ha => ?_, by simp⟩⟩
      · rw [hlayers]
        exact fun f hf => (hshift.clean f hf).congr hq.base.trees
      · exact ⟨.refl _, rfl, hq.base.fold, hq.base.live⟩
      · rw [hlayers]
        exact (hq.holds _ _ (fun _ _ => trivial) ha).invalidate _

theorem Tidy.next_openStream (hm : node ∈ held) (mode : OpenMode) :
    ∃ res w', (openStream (Store.provider (n + 1)) node mode).exec w = (res, w') ∧
      Next label w label w' [] ∧ (Coherent lost label w → Coherent lost label w') := by
  obtain ⟨res, s', he, hshift⟩ :=
    exec_openStream n mode (fun _ => False) h.clean h.base (h.known node hm).sound
  refine ⟨res, _, he, ⟨hshift.clean, h.base.changed s', fun _ ha => ha, by simp⟩, fun hc => ?_⟩
  exact Holds.change_lost h.clean hc hshift fun _ => False.elim

theorem Tidy.next_addLayer {f : Filesystem} (hf : f.CleanTree w.1) :
    Next label w label (w.1, w.2.addLayer f) [] where
  clean g hg := (List.mem_append.mp hg).elim (h.clean g) fun hg => by
    rwa [List.mem_singleton.mp hg]
  base := ⟨.refl _, rfl, h.base.fold, h.base.live⟩
  kept a ha := ha.of_listing (fun _ => rfl) le_rfl (fun _ _ => rfl) fun i g hg => by
    rw [addLayer, List.getElem?_append_left (List.getElem?_eq_some_iff.mp hg).1]
    exact hg
  new := List.forall_mem_nil _

/-- What is known survives a tidy request.  The union stays coherent if it notes changes and they
are made through current nodes. -/
theorem Tidy.request (lost : List String → Prop) {r : Request Filesystem Entry} (hr : r.IsTidy w.1)
    (hnode : ∀ node ∈ r.node?, node ∈ held) :
    ∃ res label' w', (r.perform (Store.provider (n + 1))).exec w = (res, w') ∧
      Next label w label' w' (handed res) ∧
      (w.2.policy = .eager → r.IsCurrent lost w.2 →
        Coherent lost label w → Coherent lost label' w') := by
  have reading (hr : r.isReading = true) :
      ∃ res label' w', (r.perform (Store.provider (n + 1))).exec w = (res, w') ∧
        Next label w label' w' (handed res) ∧
        (w.2.policy = .eager → r.IsCurrent lost w.2 →
        Coherent lost label w → Coherent lost label' w') := by
    obtain ⟨res, label', w', he, hn, hc⟩ := h.next_reading n hr hnode
    exact ⟨res, label', w', he, hn, fun _ _ => hc⟩
  cases r with
  | entry path => exact reading rfl
  | addLayer f => exact ⟨_, label, _, rfl, h.next_addLayer hr, fun _ => False.elim⟩
  | ask node what =>
      have hm := hnode node rfl
      cases what with
      | child name => exact reading rfl
      | children => exact reading rfl
      | count => exact reading rfl
      | populate depth => exact reading rfl
      | refresh => exact reading rfl
      | invalidate => exact reading rfl
      | openStream mode =>
          obtain ⟨res, w', he, hn, hc⟩ := h.next_openStream n hm mode
          refine ⟨_, label, w', exec_map_of_eq he _, ?_, fun _ _ => hc⟩
          cases res <;> exact hn
      | delete name =>
          have hr : ∀ n ∈ components (normalize name false), IsName n := hr
          obtain ⟨res, label', w', he, hn, hc⟩ := h.next_delete n hm hr
          refine ⟨_, label', w', exec_map_of_eq he _, ?_, hc⟩
          cases res <;> exact hn
      | create kind name =>
          have hr : ∀ n ∈ components (normalize name false), IsName n := hr
          obtain ⟨res, label', w', he, hn, hc⟩ := h.next_create n hm kind hr
          refine ⟨_, label', w', exec_map_of_eq he _, ?_, hc⟩
          cases res <;> exact hn
      | rename target =>
          have hr : ∀ n ∈ components (normalize target false), IsName n := hr
          obtain ⟨res, label', w', he, hn⟩ := h.next_rename n hm hr
          refine ⟨_, label', w', exec_map_of_eq he _, ?_, fun _ => False.elim⟩
          cases res <;> exact hn

end

/-! ## Runs -/

/-- No clean tree of the store is spoilt. -/
def Spares (s s' : Store) : Prop := ∀ f : Filesystem, f.CleanTree s → f.CleanTree s'

/-- What is known survives a run of tidy requests, if the world spoils no tree in between. -/
theorem Reaches.tidy {n : Nat} {held' : List (Node Entry)}
    (h : Reaches (Store.provider (n + 1)) Spares (fun w r => r.IsTidy w.1) held w held' w')
    (hw : Tidy label held w) : ∃ label', Tidy label' held' w' := by
  induction h with
  | start => exact ⟨label, hw⟩
  | world _ hs ih =>
      obtain ⟨label', h'⟩ := ih
      exact ⟨label', fun f hf => hs f (h'.clean f hf), h'.base.changed _, h'.root, h'.known⟩
  | request r _ hr ha ih =>
      obtain ⟨label₁, h₁⟩ := ih
      obtain ⟨res, label', w', he, hn, -⟩ := h₁.request n (fun _ => False) ha hr
      rw [he]
      exact ⟨label', h₁.next hn⟩

end Strata.Overlay
