/-
# `Strata.Proofs.Overlay.FirstOffer` — the first offer is shown, whatever there is behind it

A union that has listed nothing asks the layers for every directory on its way
(`Arrives`), and takes each name from the first answer that has it.  The kind of an
entry plays no part in this: an entry that its layer lists is shown and hides the
same name in the layers below even if there is nothing behind it, as behind a link
to nowhere (`first_offer_shown`).

The layers are any at all.
-/
import Strata.Proofs.Folding
import Strata.Proofs.Host.Runs
import Strata.Proofs.Overlay.History
import Strata.Proofs.Overlay.Walk

namespace Strata.Overlay

open Strata.Action Strata.Path

variable {σ F E S : Type} {P : Provider σ F E S} {fold : Bool} {name : String}
  {offers : List (Offer E)} {o : Offer E}

/-! ## The first offer of a name -/

/-- The first of these that is offered under the name. -/
def firstOf (fold : Bool) (name : String) (offers : List (Offer E)) : Option (Offer E) :=
  offers.find? fun o => listedName fold o.path == name

theorem lookup_firstWins (h0 : name ≠ "") :
    (firstWins fold offers).lookup name = firstOf fold name offers := by
  rw [← withOffers_nil, lookup_withOffers h0, List.lookup_nil, Option.none_or, firstOf]

/-- What is kept of all offers is the first of each name. -/
theorem mem_firstWins :
    (name, o) ∈ firstWins fold offers ↔ name ≠ "" ∧ firstOf fold name offers = some o := by
  constructor
  · intro h
    have hnodup : ((firstWins fold offers).map (·.1)).Nodup := by
      rw [← withOffers_nil]
      exact nodup_withOffers List.nodup_nil
    have hne : name ≠ "" := by
      rw [← withOffers_nil, ← withOffers_filter] at h
      obtain ⟨ho, hname⟩ := (mem_withOffers h).resolve_left List.not_mem_nil
      rw [show name = _ from hname]
      simpa using (List.mem_filter.mp ho).2
    refine ⟨hne, ?_⟩
    rw [← lookup_firstWins hne]
    exact lookup_of_nodup hnodup h
  · rintro ⟨hne, h⟩
    rw [← lookup_firstWins hne] at h
    exact mem_of_lookup h

/-! ## Listing for the first time -/

/-- The union lives, and the node has not been listed in it. -/
structure Unseen (u : Overlay F E) (node : Node E) : Prop where
  live : u.released = false
  slot : node.slot < u.listings.size
  dirty : (u.listing node.slot).dirty = true

section
variable {w w' : σ × Overlay F E} {node : Node E}

/-- The first listing of a node takes the first offer of each name from what the layers answer. -/
theorem Unseen.listed {children : List (String × Child E)} (h : Unseen w.2 node)
    (hx : (listed P node).exec w = (.ok children, w')) :
    ∃ answers, Answers P node.path 0 w.2.layers w.1 answers w'.1 ∧
      w'.2 = w.2.install node.slot (firstWins w.2.fold (offered P answers)) ∧
      children
        = assignSlots w.2.listings.size (firstWins w.2.fold (offered P answers)) := by
  have hlisted : (Overlay.listed P node).exec w = (do
      scan P node; return ((← current).listing node.slot).children : Call σ F E _).exec w := by
    simp [Overlay.listed, current, h.dirty]
  rw [hlisted] at hx
  obtain ⟨⟨⟩, w₁, hscan, hread⟩ := of_exec_bind hx
  obtain ⟨hchildren, rfl⟩ := Prod.mk.inj hread
  obtain ⟨answers, ha⟩ := answers_of_scan hscan
  have hdone := scan_done hscan ha
  refine ⟨answers, ha, hdone, ?_⟩
  have hchildren : (w₁.2.listing node.slot).children = children := Except.ok.inj hchildren
  rw [← hchildren, hdone, listing_install _ _ h.slot, if_pos rfl]

/-- What was listed has not been listed itself. -/
theorem Unseen.child {u : Overlay F E} (h : Unseen u node) {table : List (String × Offer E)}
    {child : Child E} (hmem : (name, child) ∈ assignSlots u.listings.size table) :
    Unseen (u.install node.slot table) (.entry child) := by
  obtain ⟨hle, hat⟩ := getElem?_of_mem_assignSlots hmem
  have hlt : child.slot - u.listings.size < table.length := (List.getElem?_eq_some_iff.mp hat).1
  have hslot := h.slot
  refine ⟨h.live, ?_, ?_⟩
  · rw [size_install]
    show child.slot < _
    omega
  · show ((u.install node.slot table).listing child.slot).dirty = true
    rw [listing_install _ _ h.slot, if_neg (by omega), listing_of_size_le _ hle]
    rfl

/-- The first look for a name finds the first offer of it. -/
theorem Unseen.listedChild {r : Option (Node E)} (h : Unseen w.2 node) (h0 : name ≠ "")
    (hx : (listedChild P node name).exec w = (.ok r, w')) :
    ∃ answers, Answers P node.path 0 w.2.layers w.1 answers w'.1 ∧
      (w'.2.fold = w.2.fold ∧ w'.2.layers = w.2.layers) ∧
      r.bind Node.offer? = firstOf w.2.fold name (offered P answers) ∧
      ∀ m, r = some m → ∃ c, m = .entry c ∧ Unseen w'.2 m := by
  obtain ⟨children, w₁, hlisted, hread⟩ := of_exec_bind hx
  obtain ⟨hr, rfl⟩ := Prod.mk.inj hread
  have hr : (children.lookup name).map Node.entry = r := Except.ok.inj hr
  obtain ⟨answers, ha, hinstall, hchildren⟩ := h.listed hlisted
  refine ⟨answers, ha, by rw [hinstall]; exact ⟨rfl, rfl⟩, ?_, ?_⟩
  · have hlookup := lookup_map_offer children name
    rw [hchildren, map_offer_assignSlots, lookup_firstWins h0, ← hchildren] at hlookup
    rw [hlookup, ← hr]
    cases children.lookup name <;> rfl
  · rintro m rfl
    obtain ⟨c, hc, rfl⟩ := Option.map_eq_some_iff.mp hr
    have hmem := mem_of_lookup hc
    rw [hchildren] at hmem
    refine ⟨c, rfl, ?_⟩
    rw [hinstall]
    exact h.child hmem

end

/-! ## Walking for the first time -/

/-- Where names lead from a directory when each directory on the way is listed by asking the
layers, from one world to another. -/
inductive Arrives (P : Provider σ F E S) (fold : Bool) (layers : List F) :
    String → List String → σ → Option (Offer E) → σ → Prop
  | missing {path c : String} {cs : List String} {s t : σ} {answers : List (Nat × List E)} :
      Answers P path 0 layers s answers t → firstOf fold c (offered P answers) = none →
      Arrives P fold layers path (c :: cs) s none t
  | found {path c : String} {s t : σ} {answers : List (Nat × List E)} {o : Offer E} :
      Answers P path 0 layers s answers t → firstOf fold c (offered P answers) = some o →
      Arrives P fold layers path [c] s (some o) t
  | onward {path c : String} {cs : List String} {s t u : σ} {answers : List (Nat × List E)}
      {o : Offer E} {r : Option (Offer E)} :
      Answers P path 0 layers s answers t → firstOf fold c (offered P answers) = some o →
      (P.kind o.source t).isDirectory = true → Arrives P fold layers o.path cs t r u →
      Arrives P fold layers path (c :: cs) s r u

/-- Where names lead is the first offer of a name in the last directory that was listed. -/
theorem Arrives.last {layers : List F} {path : String} {cs : List String} {s t : σ}
    {r : Option (Offer E)} (h : Arrives P fold layers path cs s r t) :
    ∃ dir s' answers, Answers P dir 0 layers s' answers t ∧
      ∃ c ∈ cs, r = firstOf fold c (offered P answers) := by
  induction h with
  | missing ha hfirst => exact ⟨_, _, _, ha, _, List.mem_cons_self, hfirst.symm⟩
  | found ha hfirst => exact ⟨_, _, _, ha, _, List.mem_cons_self, hfirst.symm⟩
  | onward _ _ _ _ ih =>
      obtain ⟨dir, s', answers, ha, c, hc, hr⟩ := ih
      exact ⟨dir, s', answers, ha, c, List.mem_cons_of_mem _ hc, hr⟩

section
variable {w w' : σ × Overlay F E} {node : Node E} {r : Option (Node E)}

theorem of_requireDirectory {w₁ : σ × Overlay F E}
    (h : (requireDirectory P node).exec w = (.ok (), w₁)) :
    (kind P node w.1).isDirectory = true ∧ w₁ = w := by
  simp only [requireDirectory, exec_bind, exec_get] at h
  cases hd : (kind P node w.1).isDirectory with
  | true =>
      rw [hd] at h
      exact ⟨rfl, (Prod.mk.inj h).2.symm⟩
  | false =>
      rw [hd] at h
      cases (Prod.mk.inj h).1

/-- A step of a walk that succeeds: the layers answered, and the walk goes on at the first offer of
the name. -/
theorem Unseen.step {c : String} {cs : List String} (h : Unseen w.2 node) (h0 : c ≠ "")
    (hx : (descend P node (c :: cs)).exec w = (.ok r, w')) :
    ∃ answers w₁, Answers P node.path 0 w.2.layers w.1 answers w₁.1 ∧
      (w₁.2.fold = w.2.fold ∧ w₁.2.layers = w.2.layers) ∧
      (firstOf w.2.fold c (offered P answers) = none ∧ r = none ∧ w' = w₁ ∨
        ∃ child, firstOf w.2.fold c (offered P answers) = some child.offer ∧
          Unseen w₁.2 (.entry child) ∧
          (descend P (.entry child) cs).exec w₁ = (.ok r, w')) := by
  obtain ⟨⟨⟩, w₀, hdir, hlook⟩ := of_exec_bind hx
  obtain ⟨-, hw₀⟩ := of_requireDirectory hdir
  rw [hw₀] at hlook
  obtain ⟨next, w₁, hlisted, hend⟩ := of_exec_bind hlook
  obtain ⟨answers, ha, hsettings, hfirst, hnext⟩ := h.listedChild h0 hlisted
  refine ⟨answers, w₁, ha, hsettings, ?_⟩
  cases next with
  | none =>
      obtain ⟨hr, rfl⟩ := Prod.mk.inj hend
      exact .inl ⟨hfirst.symm, (Except.ok.inj hr).symm, rfl⟩
  | some m =>
      obtain ⟨child, rfl, hunseen⟩ := hnext m rfl
      exact .inr ⟨child, hfirst.symm, hunseen, hend⟩

/-- A walk that succeeds was answered by the layers at each step. -/
theorem Unseen.descend {c : String} {cs : List String} (h : Unseen w.2 node)
    (h0 : ∀ n ∈ c :: cs, n ≠ "") (hx : (descend P node (c :: cs)).exec w = (.ok r, w')) :
    Arrives P w.2.fold w.2.layers node.path (c :: cs) w.1 (r.bind Node.offer?) w'.1 := by
  induction cs generalizing node c w with
  | nil =>
      obtain ⟨answers, w₁, ha, -, ⟨hnone, rfl, rfl⟩ | ⟨child, hsome, -, hend⟩⟩ :=
        h.step (h0 c List.mem_cons_self) hx
      · exact .missing ha hnone
      · obtain ⟨hr, rfl⟩ := Prod.mk.inj hend
        obtain rfl := Except.ok.inj hr
        exact .found ha hsome
  | cons c' cs ih =>
      obtain ⟨answers, w₁, ha, ⟨hfold, hlayers⟩, ⟨hnone, rfl, rfl⟩ | ⟨child, hsome, hnext, hend⟩⟩ :=
        h.step (h0 c List.mem_cons_self) hx
      · exact .missing ha hnone
      · have hrest := ih hnext (fun n hn => h0 n (List.mem_cons_of_mem _ hn)) hend
        obtain ⟨⟨⟩, w₂, hdir, -⟩ := of_exec_bind hend
        rw [hfold, hlayers] at hrest
        exact .onward ha hsome (of_requireDirectory hdir).1 hrest

end

/-! ## What is shown -/

/-- The nodes that are made of a table have its offers. -/
theorem exists_node_iff (k : Nat) (table : List (String × Offer E)) (q : Offer E → Prop) :
    (∃ m ∈ (assignSlots k table).map fun c => Node.entry c.2, ∃ o, m.offer? = some o ∧ q o) ↔
      ∃ name o, (name, o) ∈ table ∧ q o := by
  conv_rhs => rw [← map_offer_assignSlots k table]
  constructor
  · rintro ⟨m, hm, o, ho, hq⟩
    obtain ⟨c, hc, rfl⟩ := List.mem_map.mp hm
    obtain rfl := Option.some.inj ho
    exact ⟨c.1, _, List.mem_map.mpr ⟨c, hc, rfl⟩, hq⟩
  · rintro ⟨name, o, ho, hq⟩
    obtain ⟨c, hc, heq⟩ := List.mem_map.mp ho
    obtain ⟨-, rfl⟩ := Prod.mk.inj heq
    exact ⟨_, List.mem_map.mpr ⟨c, hc, rfl⟩, _, rfl, hq⟩

section
variable {w : σ × Overlay F E}

theorem kind_eq_unknown_iff {node : Node E} {s : σ} :
    kind P node s = .unknown ↔
      ∃ o, node.offer? = some o ∧ P.kind o.source s = .unknown := by
  cases node with
  | root => simp [kind, Node.source?, Node.offer?]
  | entry c => simp [kind, Node.source?, Node.offer?]

/-- A union of any layers that has not been listed shows of each name the first offer that a layer
made for it, whatever its kind: an entry with nothing behind it is listed, and found, exactly if no
layer before its own offers the name. -/
theorem first_offer_shown (hlive : w.2.released = false) :
    (∀ node ns w', node.slot < w.2.listings.size → (w.2.listing node.slot).dirty = true →
      (children P node).exec w = (.ok ns, w') →
      ∃ answers, Answers P node.path 0 w.2.layers w.1 answers w'.1 ∧
        (∀ o, (∃ m ∈ ns, m.offer? = some o) ↔
          ∃ name, name ≠ "" ∧ firstOf w.2.fold name (offered P answers) = some o) ∧
        ((∃ m ∈ ns, kind P m w'.1 = .unknown) ↔
          ∃ name o, name ≠ "" ∧ firstOf w.2.fold name (offered P answers) = some o ∧
            P.kind o.source w'.1 = .unknown)) ∧
    (∀ path r w', 0 < w.2.listings.size → (w.2.listing 0).dirty = true →
      normalize path w.2.fold ≠ "" → (entry P path).exec w = (.ok r, w') →
      Arrives P w.2.fold w.2.layers "" (components (normalize path w.2.fold)) w.1
        (r.bind Node.offer?) w'.1 ∧
      ∃ dir s answers name, Answers P dir 0 w.2.layers s answers w'.1 ∧
        r.bind Node.offer? = firstOf w.2.fold name (offered P answers)) := by
  constructor
  · intro node ns w' hslot hdirty hx
    rw [children, exec_bind, exec_requireLive hlive] at hx
    obtain ⟨⟨⟩, w₁, hcan, hx⟩ := of_exec_bind hx
    rw [exec_require] at hcan
    obtain ⟨-, rfl⟩ := Prod.mk.inj hcan
    obtain ⟨⟨⟩, w₁, hdir, hlook⟩ := of_exec_bind hx
    obtain ⟨-, hw₁⟩ := of_requireDirectory hdir
    rw [hw₁] at hlook
    obtain ⟨cs, w₂, hlisted, hend⟩ := of_exec_bind hlook
    obtain ⟨hns, rfl⟩ := Prod.mk.inj hend
    obtain rfl := Except.ok.inj hns
    obtain ⟨answers, ha, -, hcs⟩ := Unseen.listed ⟨hlive, hslot, hdirty⟩ hlisted
    rw [hcs]
    have hof := exists_node_iff w.2.listings.size (firstWins w.2.fold (offered P answers))
    simp only [mem_firstWins] at hof
    refine ⟨answers, ha, fun o => ?_, ?_⟩
    · simpa [and_assoc] using hof fun o' => o' = o
    · simp only [kind_eq_unknown_iff, ← and_assoc]
      exact hof fun o => P.kind o.source w₂.1 = .unknown
  · intro path r w' hsize hdirty h0 hx
    obtain ⟨c, cs, hc⟩ := List.exists_cons_of_ne_nil (components_normalize_key_ne_nil h0)
    have hroot : (normalize path w.2.fold).isEmpty = false := by simpa using h0
    have hlookup : (lookup P .root (normalize path w.2.fold)).exec w = (.ok r, w') := by
      rw [entry, exec_bind, exec_current] at hx
      simpa only [exec_ite, hroot, Bool.false_eq_true, if_false] using hx
    rw [lookup, exec_bind, exec_requireLive hlive] at hlookup
    obtain ⟨⟨⟩, w₁, hdir, hlook⟩ := of_exec_bind hlookup
    obtain ⟨-, hw₁⟩ := of_requireDirectory hdir
    rw [hw₁, hc] at hlook
    have hname : ∀ n ∈ c :: cs, n ≠ "" := fun n hn => (isComponent_of_mem (hc ▸ hn)).1
    have hunseen : Unseen w.2 (.root : Node E) := ⟨hlive, hsize, hdirty⟩
    have harrives := hunseen.descend hname hlook
    rw [hc]
    obtain ⟨dir, s, answers, ha, c', -, hfirst⟩ := harrives.last
    exact ⟨harrives, dir, s, answers, c', ha, hfirst⟩

end

/-- A directory of the disk with a link to nowhere, and a file of the same name in memory. -/
def danglingOverFile : Store where
  memories := #[{ tree := ⟨⟨[("", .directory .epoch), ("gone", .file [1] .epoch)]⟩⟩ }]
  hosts := #[{ root := "/out" }]
  disk := Host.linkedDisk

/-- A new union of the two. -/
def danglingUnion : Store × Overlay Filesystem Entry :=
  (danglingOverFile, { layers := [.host 0, .memory 0] })

/-- The link is listed: it is the first that the layers offer under its name. -/
theorem first_offer_shown_dangling :
    ∃ ns w' answers, (children (Store.provider 1) .root).exec danglingUnion = (.ok ns, w') ∧
      Answers (Store.provider 1) "" 0 [.host 0, .memory 0] danglingOverFile answers w'.1 ∧
      ∃ name o, name ≠ "" ∧ firstOf false name (offered (Store.provider 1) answers) = some o ∧
        o.source.kind w'.1 = .unknown := by
  have hsome : ((children (Store.provider 1) .root).exec danglingUnion).1.toOption.isSome = true := by
    decide +kernel
  obtain ⟨ns, hns⟩ := Option.isSome_iff_exists.mp hsome
  have hexec := exec_of_toOption hns
  have hshown := first_offer_shown (P := Store.provider 1) (w := danglingUnion) rfl
  obtain ⟨answers, ha, -, hunknown⟩ := hshown.1 .root ns _ Nat.zero_lt_one rfl hexec
  have hany : (((children (Store.provider 1) .root).exec danglingUnion).1.toOption.any fun ns =>
      ns.any fun m => decide (kind (Store.provider 1) m
        ((children (Store.provider 1) .root).exec danglingUnion).2.1 = .unknown)) = true := by
    decide +kernel
  rw [hns, Option.any_some, List.any_eq_true] at hany
  obtain ⟨m, hm, hkind⟩ := hany
  exact ⟨ns, _, answers, hexec, ha, hunknown.mp ⟨m, hm, of_decide_eq_true hkind⟩⟩

/-- A link to nowhere is listed and found as an entry with nothing behind it, and hides a file of the
same name in the layer below. -/
theorem dangling_entry_hides_file :
    let P := Store.provider 1
    let found := (entry P "gone").exec danglingUnion
    let listing := (children P .root).exec danglingUnion
    (found.1.toOption.join.map fun m => (m.layer?, kind P m found.2.1)) = some (some 0, .unknown) ∧
      (listing.1.toOption.map fun ms => ms.map fun m => (m.path, kind P m listing.2.1))
        = some [("gone", .unknown)] ∧
      (danglingOverFile.memory 0).kind "gone" = .file := by
  decide +kernel

end Strata.Overlay
