/-
# `Strata.Proofs.Host.Refusals` — what a refused creation leaves behind

A creation goes along the components of its name and makes what is missing as it
goes.  Everything that can refuse a component is decided by what was there
before: once one directory was made there is nothing below it, so no later
component meets an entry of another kind or a link (`Fresh`).  The exception is a
component that is a dot or two dots.  It is refused when its turn comes, and by
then the directories before it have been made (`CutShort`).  So a creation that is
refused leaves the disk as it was, or its name goes on with dots
(`create_refused`); such a name does leave directories behind
(`dots_leave_directory`).
-/
import Strata.Proofs.Host.Containment

namespace Strata.Host

open Strata.Action Strata.Path Disk

variable {h : Host} {d d' : Disk} {r : Location} {ns cs : List String} {c n here target : String}
  {kind : Kind} {f : Failure}

/-! ## Components -/

/-- A component that names no entry: a dot or two dots, whatever white space is around them. -/
def IsDots (c : String) : Prop := Text.trim c = "." ∨ Text.trim c = ".."

instance : DecidablePred IsDots := fun c =>
  inferInstanceAs (Decidable (Text.trim c = "." ∨ Text.trim c = ".."))

/-- A component is blank and leads nowhere, or it is dots, or it leads to a name. -/
theorem component_cases (hc : IsComponent c) :
    ¬IsDots c ∧ components (normalize c false) = [] ∨
      IsDots c ∧ components (normalize c false) = [Text.trim c] ∨
      ¬IsDots c ∧ components (normalize c false) = [Text.trim c] ∧ IsFileName (Text.trim c) := by
  have hone := components_component hc
  split at hone
  · rename_i hblank
    exact .inl ⟨by simp [IsDots, hblank], hone⟩
  · by_cases hdots : IsDots c
    · exact .inr (.inl ⟨hdots, hone⟩)
    · refine .inr (.inr ⟨hdots, hone, (isName_of_single hone).1, ?_⟩)
      simpa [IsDots] using hdots

/-- Dots are refused where they stand. -/
theorem resolve_dots (hns : ∀ m ∈ ns, IsFileName m) (hdots : n = "." ∨ n = "..") :
    ∃ f, h.resolve d (ofNames (ns ++ [n])) = .error f ∧
      (f = .escapesRoot (ofNames (ns ++ [n])) ∨ f = .invalidPath (ofNames (ns ++ [n]))) := by
  have hn : IsComponent n := by rcases hdots with rfl | rfl <;> decide
  have hall : ∀ m ∈ ns ++ [n], IsComponent m := forall_mem_snoc (fun m hm => (hns m hm).1) hn
  have hnonempty : (ofNames (ns ++ [n])).isEmpty = false := by
    rw [← Bool.not_eq_true, String.isEmpty_iff, ofNames_eq_empty hall]
    simp
  have hcheck (path : String) (ms : List String) (hms : ∀ m ∈ ms, IsFileName m) :
      checkComponents path (ms ++ [n]) =
        .error (if n = ".." then .escapesRoot path else .invalidPath path) := by
    induction ms with
    | nil => rcases hdots with rfl | rfl <;> rfl
    | cons m ms ih =>
      obtain ⟨hm, hms⟩ := List.forall_mem_cons.mp hms
      rw [List.cons_append, checkComponents, if_neg hm.2.2, if_neg hm.2.1, ih hms]
  refine ⟨if n = ".." then .escapesRoot (ofNames (ns ++ [n]))
    else .invalidPath (ofNames (ns ++ [n])), ?_, ?_⟩
  · rw [resolve, hnonempty, if_neg Bool.false_ne_true, components_ofNames hall, hcheck _ ns hns]
    rfl
  · split
    · exact .inl rfl
    · exact .inr rfl

/-! ## How far the target is

The creation tells its target by the length.  A component takes at most its own
length and a separator more, so as long as there are components to come the
target is not reached. -/

/-- The most that the components add to the length of a path. -/
def room : List String → Nat
  | [] => 0
  | c :: cs => c.utf8ByteSize + 1 + room cs

theorem room_pos (hcs : ∀ c ∈ cs, IsComponent c) (hne : cs ≠ []) : 1 < room cs := by
  obtain ⟨c, cs, rfl⟩ := List.exists_cons_of_ne_nil hne
  have hc : c.utf8ByteSize ≠ 0 := by
    simpa using (hcs c List.mem_cons_self).1
  rw [room]
  omega

theorem size_trim_le (c : String) : (Text.trim c).utf8ByteSize ≤ c.utf8ByteSize := by
  obtain ⟨before, after, hc⟩ := Text.exists_around_trim c
  have := congrArg String.utf8ByteSize hc
  simp only [String.utf8ByteSize_append] at this
  omega

theorem size_ofNames_snoc_le (ns : List String) (n : String) :
    (ofNames (ns ++ [n])).utf8ByteSize ≤ (ofNames ns).utf8ByteSize + n.utf8ByteSize + 1 := by
  have hone : "/".utf8ByteSize = 1 := by decide
  by_cases hns : ns = []
  · subst hns
    simp [ofNames_singleton]
    omega
  · rw [ofNames_append hns (by simp), ofNames_singleton]
    simp only [String.utf8ByteSize_append]
    omega

theorem room_le (cs : List String) : room cs ≤ (ofNames cs).utf8ByteSize + 1 := by
  have hone : "/".utf8ByteSize = 1 := by decide
  induction cs with
  | nil => simp [room]
  | cons c cs ih =>
    by_cases hcs : cs = []
    · subst hcs
      simp [room, ofNames_singleton]
    · rw [← List.singleton_append, ofNames_append (by simp) hcs, ofNames_singleton]
      simp only [List.singleton_append, room, String.utf8ByteSize_append]
      omega

/-- The components that are still to come are those that make up the rest of the target. -/
def Within (target here : String) (cs : List String) : Prop :=
  here.utf8ByteSize + room cs ≤ target.utf8ByteSize + 1

theorem within_join (hns : ∀ n ∈ ns, IsComponent n) (name : String) :
    Within (join (ofNames ns) name) (ofNames ns) (components (normalize name false)) := by
  have hone : "/".utf8ByteSize = 1 := by decide
  rw [join_eq_ofNames hns, Within]
  have hroom := room_le (components (normalize name false))
  by_cases h0 : ns = []
  · subst h0
    simpa [ofNames_nil] using hroom
  by_cases h1 : components (normalize name false) = []
  · rw [h1]
    simp [room]
  · rw [ofNames_append h0 h1]
    simp only [String.utf8ByteSize_append]
    omega

/-- Before the last component the target is not reached. -/
theorem Within.ne (hw : Within target here cs) (hcs : ∀ c ∈ cs, IsComponent c) (hne : cs ≠ []) :
    here.utf8ByteSize ≠ target.utf8ByteSize := by
  have := room_pos hcs hne
  rw [Within] at hw
  omega

theorem Within.blank (hw : Within target here (c :: cs)) : Within target here cs := by
  rw [Within, room] at *
  omega

theorem Within.step (hw : Within target (ofNames ns) (c :: cs)) :
    Within target (ofNames (ns ++ [Text.trim c])) cs := by
  have := size_ofNames_snoc_le ns (Text.trim c)
  have := size_trim_le c
  rw [Within, room] at *
  omega

/-! ## One component -/

/-- What a creation that is refused did at its first component: the path did not pass the check, or
something of another kind was there, or it made or found what it wanted and was refused later. -/
theorem createFrom_refused_cases (hf : f.isMisuse)
    (hrun : (h.createFrom target kind here (c :: cs)).exec d = (.error f, d')) :
    h.resolve d (join here c) = .error f ∧ d' = d ∨
    ∃ full, h.resolve d (join here c) = .ok full ∧
      (d' = d ∧ d.kindAt full ≠ .unknown ∧
          d.kindAt full ≠
            (if (join here c).utf8ByteSize = target.utf8ByteSize then kind else .directory) ∨
        ∃ d₁, (h.createFrom target kind (join here c) cs).exec d₁ = (.error f, d') ∧
          (d.kindAt full ≠ .unknown ∧ d₁ = d ∨
            d.kindAt full = .unknown ∧ (d.makeDirectory full = .ok d₁ ∨
              (join here c).utf8ByteSize = target.utf8ByteSize ∧ d.makeFile full = .ok d₁))) := by
  have hio (e : IoError) : Failure.io e ≠ f := by
    rintro rfl
    cases hf
  rw [createFrom] at hrun
  simp only [exec_bind, exec_get, exec_ofExcept] at hrun
  generalize hwanted :
    (if (join here c).utf8ByteSize = target.utf8ByteSize then kind else .directory) = wanted
    at hrun ⊢
  cases hres : h.resolve d (join here c) with
  | error e =>
    rw [hres] at hrun
    cases hrun
    exact .inl ⟨rfl, rfl⟩
  | ok full =>
    rw [hres] at hrun
    refine .inr ⟨full, rfl, ?_⟩
    dsimp only at hrun
    split at hrun
    · rename_i hunknown
      rw [exec_ite] at hrun
      split at hrun
      · cases hmake : d.makeDirectory full with
        | error e =>
          rw [hmake] at hrun
          exact absurd (Except.error.inj (Prod.mk.inj hrun).1) (hio e)
        | ok d₁ =>
          rw [hmake] at hrun
          exact .inr ⟨d₁, hrun, .inr ⟨hunknown, .inl rfl⟩⟩
      · rename_i hfile
        cases hmake : d.makeFile full with
        | error e =>
          rw [hmake] at hrun
          exact absurd (Except.error.inj (Prod.mk.inj hrun).1) (hio e)
        | ok d₁ =>
          rw [hmake] at hrun
          have hlength : (join here c).utf8ByteSize = target.utf8ByteSize := by
            by_contra hlength
            rw [if_neg hlength] at hwanted
            exact hfile (by rw [← hwanted]; rfl)
          exact .inr ⟨d₁, hrun, .inr ⟨hunknown, .inr ⟨hlength, rfl⟩⟩⟩
    · rename_i hknown
      rw [exec_ite] at hrun
      split at hrun
      · exact .inr ⟨d, hrun, .inl ⟨hknown, rfl⟩⟩
      · rename_i hother
        cases hrun
        exact .inl ⟨rfl, hknown, by simpa using hother⟩

/-! ## Below what was just made -/

/-- The names lead to a directory under the root, and nothing is in it. -/
structure Fresh (d : Disk) (r : Location) (ns : List String) : Prop where
  kind : d.kindAt (textOf (r ++ ns)) = .directory
  under : d.LeadsUnder r (r ++ ns)
  empty : ∀ loc, d.locate true (textOf (r ++ ns)) = .ok loc → ∀ m, d.item? (loc ++ [m]) = none

section
variable (hr : h.Rooted d r) (hns : ∀ m ∈ ns, IsFileName m)
include hr hns

theorem Fresh.nothing_below (hfresh : Fresh d r ns) (hn : IsFileName n) {loc : Location}
    (hloc : d.locate true (textOf (r ++ (ns ++ [n]))) = .ok loc) : d.item? loc = none := by
  have hall := hr.isFileName hns
  rw [← List.append_assoc] at hloc
  obtain ⟨dir, hdir, hdirectory⟩ := locate_front hr.tree hall hn hloc
  have hnone := hfresh.empty dir hdir n
  rcases locate_last hr.tree hall hn hdir hdirectory with ⟨e, -, he⟩ | hlast
  · rw [he] at hloc
    cases hloc
  · rw [hlast true (.inr (by simp [hnone]))] at hloc
    cases hloc
    exact hnone

/-- A name below it passes the check and leads to nothing. -/
theorem Fresh.name (hfresh : Fresh d r ns) (hn : IsFileName n) :
    h.resolve d (ofNames (ns ++ [n])) = .ok (textOf (r ++ (ns ++ [n]))) ∧
      d.kindAt (textOf (r ++ (ns ++ [n]))) = .unknown ∧ d.LeadsUnder r (r ++ (ns ++ [n])) := by
  have hunder : d.LeadsUnder r (r ++ (ns ++ [n])) := fun loc item hloc hitem => by
    rw [hfresh.nothing_below hr hns hn hloc] at hitem
    cases hitem
  refine ⟨resolve_of_leadsUnder hr (forall_mem_snoc hns hn) hunder, ?_, hunder⟩
  by_contra hkind
  obtain ⟨loc, item, hloc, hitem⟩ :=
    exists_of_kindAt (show _ = true by simpa [Kind.exists?] using hkind)
  rw [hfresh.nothing_below hr hns hn hloc] at hitem
  cases hitem

/-- A directory that is made is fresh, it is the only thing that is new, and the root stays what it
is. -/
theorem fresh_of_makeDirectory (hunder : d.LeadsUnder r (r ++ ns)) (hn : IsFileName n)
    (hmake : d.makeDirectory (textOf (r ++ (ns ++ [n]))) = .ok d') :
    h.Rooted d' r ∧ Grown d d' ∧ Fresh d' r (ns ++ [n]) ∧
      ∃ loc, d.item? loc = none ∧ d' = d.add loc .directory ∧
        d'.locate true (textOf (r ++ (ns ++ [n]))) = .ok loc ∧ r <+: loc := by
  rw [← List.append_assoc] at hmake
  obtain ⟨hc, hg, loc, hnone, hd', hloc, hitem, hrloc, hempty⟩ :=
    makeDirectory_spec hr.tree (hr.isFileName hns) hn hunder hmake
  rw [List.append_assoc] at hloc
  refine ⟨hr.keep hc, hg, ⟨?_, leadsUnder_of_locate hloc hrloc, fun loc' hloc' => ?_⟩,
    loc, hnone, hd', hloc, hrloc⟩
  · simpa [Kind.isDirectory] using kindAt_isDirectory.mpr ⟨loc, hloc, hitem⟩
  · rw [hloc] at hloc'
    cases hloc'
    exact hempty

end

/-! ## Where a path leads -/

/-- The path passes the check, and it leads to the location. -/
def LeadsTo (h : Host) (d : Disk) (path : String) (loc : Location) : Prop :=
  ∃ full, h.resolve d path = .ok full ∧ d.locate true full = .ok loc

/-- Names that lead below the root still lead there when the disk has grown. -/
theorem leadsTo_of_grown (hr : h.Rooted d' r) (hns : ∀ m ∈ ns, IsFileName m) (hg : Grown d d')
    {loc : Location} (hloc : d.locate true (textOf (r ++ ns)) = .ok loc) (hrloc : r <+: loc) :
    h.LeadsTo d' (ofNames ns) loc := by
  have hloc' := locate_of_grown hg (hr.isFileName hns) hloc
  exact ⟨_, resolve_of_leadsUnder hr hns (leadsUnder_of_locate hloc' hrloc), hloc'⟩

/-! ## A name that goes on with dots -/

/-- After `front` the name goes on with dots, which are refused, and what is left behind are
directories: those that were missing on the way along `front`. -/
structure CutShort (h : Host) (d d' : Disk) (here : String) (front : List String) (stop : String)
    (f : Failure) (made : List Location) : Prop where
  names : ∀ c ∈ front, ¬IsDots c
  dots : IsDots stop
  failure : f = .escapesRoot (join (front.foldl join here) stop) ∨
    f = .invalidPath (join (front.foldl join here) stop)
  disk : d' = made.foldl (fun d loc => d.add loc .directory) d
  missing : ∀ loc ∈ made, d.item? loc = none
  way : ∀ loc ∈ made, ∃ part, part <+: front ∧ h.LeadsTo d' (part.foldl join here) loc
  directory : (h.kind d' (front.foldl join here)).isDirectory

section
variable {front : List String} {stop : String} {made : List Location}

theorem CutShort.step (hcut : CutShort h d d' (join here c) front stop f made) (hc : ¬IsDots c) :
    CutShort h d d' here (c :: front) stop f made where
  names := List.forall_mem_cons.mpr ⟨hc, hcut.names⟩
  dots := hcut.dots
  failure := hcut.failure
  disk := hcut.disk
  missing := hcut.missing
  way loc hloc := by
    obtain ⟨part, hpart, hleads⟩ := hcut.way loc hloc
    exact ⟨c :: part, List.cons_prefix_cons.mpr ⟨rfl, hpart⟩, hleads⟩
  directory := hcut.directory

/-- A creation that goes on from a directory which it has made itself. -/
theorem CutShort.after {loc : Location} (hnone : d.item? loc = none) (hleads : h.LeadsTo d' here loc)
    (hcut : CutShort h (d.add loc .directory) d' here front stop f made) :
    CutShort h d d' here front stop f (loc :: made) :=
  { hcut with
    disk := hcut.disk
    missing := List.forall_mem_cons.mpr ⟨hnone, fun q hq => by
      have hq := hcut.missing q hq
      rw [item?_add_of_none hnone] at hq
      split at hq
      · cases hq
      · exact hq⟩
    way := List.forall_mem_cons.mpr ⟨⟨[], List.nil_prefix, hleads⟩, hcut.way⟩ }

/-- Below a directory that was just made a creation is refused for dots only, and the disk still has
what it had. -/
theorem createFrom_fresh (hr : h.Rooted d r) (hns : ∀ m ∈ ns, IsFileName m) (hfresh : Fresh d r ns)
    (hcs : ∀ c ∈ cs, IsComponent c) (hw : Within target (ofNames ns) cs) (hf : f.isMisuse)
    (hrun : (h.createFrom target kind (ofNames ns) cs).exec d = (.error f, d')) :
    h.Rooted d' r ∧ Grown d d' ∧ ∃ front stop rest made, cs = front ++ stop :: rest ∧
      CutShort h d d' (ofNames ns) front stop f made := by
  induction cs generalizing d ns with
  | nil => cases hrun
  | cons c cs ih =>
    have hlength := hw.ne hcs (List.cons_ne_nil c cs)
    obtain ⟨hc, hcs⟩ := List.forall_mem_cons.mp hcs
    have hhere := resolve_of_leadsUnder hr hns hfresh.under
    have hgo := join_eq_ofNames (fun m hm => (hns m hm).1) c
    have hcases := createFrom_refused_cases hf hrun
    rcases component_cases hc with ⟨hno, hblank⟩ | ⟨hdots, hone⟩ | ⟨hno, hone, hname⟩
    · -- a blank component leads back to the fresh directory, which is what is wanted there
      rw [hblank, List.append_nil] at hgo
      rw [hgo, hhere, if_neg hlength] at hcases
      obtain ⟨he, -⟩ | ⟨full, hfull, hcases⟩ := hcases
      · cases he
      cases hfull
      rw [hfresh.kind] at hcases
      obtain ⟨-, -, hother⟩ | ⟨d₁, hnext, ⟨-, rfl⟩ | ⟨hunknown, -⟩⟩ := hcases
      · exact absurd rfl hother
      · obtain ⟨hr', hg, front, stop, rest, made, rfl, hcut⟩ := ih hr hns hfresh hcs hw.blank hnext
        exact ⟨hr', hg, c :: front, stop, rest, made, rfl, .step (hgo.symm ▸ hcut) hno⟩
      · cases hunknown
    · rw [hone] at hgo
      obtain ⟨f', hrefused, hf'⟩ := resolve_dots (h := h) (d := d) hns hdots
      rw [hgo, hrefused] at hcases
      obtain ⟨he, rfl⟩ | ⟨full, hfull, -⟩ := hcases
      · cases he
        refine ⟨hr, .refl _, [], c, cs, [], rfl, List.forall_mem_nil _, hdots, ?_, rfl,
          List.forall_mem_nil _, List.forall_mem_nil _, ?_⟩
        · rwa [List.foldl_nil, hgo]
        · rw [List.foldl_nil, Host.kind, kindOf, hhere]
          simp [bind, Except.bind, hfresh.kind, Kind.isDirectory, pure, Except.pure]
      · cases hfull
    · rw [hone] at hgo
      obtain ⟨hres, hunknown, -⟩ := hfresh.name hr hns hname
      rw [hgo, hres] at hcases
      obtain ⟨he, -⟩ | ⟨full, hfull, hcases⟩ := hcases
      · cases he
      cases hfull
      rw [hunknown] at hcases
      obtain ⟨-, hknown, -⟩ | ⟨d₁, hnext, ⟨hknown, -⟩ | ⟨-, hmade⟩⟩ := hcases
      · exact absurd rfl hknown
      · exact absurd rfl hknown
      · rcases hmade with hmade | ⟨hlast, -⟩
        · obtain ⟨hr₁, hg₁, hfresh₁, loc, hnone, rfl, hloc, hrloc⟩ :=
            fresh_of_makeDirectory hr hns hfresh.under hname hmade
          have hnames := forall_mem_snoc hns hname
          obtain ⟨hr', hg, front, stop, rest, made, rfl, hcut⟩ :=
            ih hr₁ hnames hfresh₁ hcs hw.step hnext
          have hcut' := hcut.after hnone (leadsTo_of_grown hr' hnames hg hloc hrloc)
          exact ⟨hr', hg₁.trans hg, c :: front, stop, rest, loc :: made, rfl,
            .step (hgo.symm ▸ hcut') hno⟩
        · -- the target was made, so nothing is left to refuse
          obtain rfl : cs = [] := by
            by_contra hne
            exact hw.step.ne hcs hne hlast
          cases hnext

/-- A creation that is refused has made nothing, unless its name goes on with dots. -/
theorem createFrom_refused (hr : h.Rooted d r) (hns : ∀ m ∈ ns, IsFileName m)
    (hstands : Stands d r ns) (hcs : ∀ c ∈ cs, IsComponent c) (hw : Within target (ofNames ns) cs)
    (hf : f.isMisuse)
    (hrun : (h.createFrom target kind (ofNames ns) cs).exec d = (.error f, d')) :
    d' = d ∨ ∃ front stop rest made, cs = front ++ stop :: rest ∧ made ≠ [] ∧
      CutShort h d d' (ofNames ns) front stop f made := by
  induction cs generalizing ns with
  | nil => cases hrun
  | cons c cs ih =>
    obtain ⟨hc, hcs⟩ := List.forall_mem_cons.mp hcs
    have hcomponents : ∀ m ∈ ns, IsComponent m := fun m hm => (hns m hm).1
    have hgo := join_eq_ofNames hcomponents c
    obtain ⟨-, rfl⟩ | ⟨full, hres, ⟨rfl, -⟩ | ⟨d₁, hnext, hcases⟩⟩ :=
      createFrom_refused_cases hf hrun
    · exact .inl rfl
    · exact .inl rfl
    rcases component_cases hc with ⟨hno, hblank⟩ | ⟨hdots, hone⟩ | ⟨hno, hone, hname⟩
    · rw [hblank, List.append_nil] at hgo
      rw [hgo] at hres hnext
      obtain ⟨rfl, -, -⟩ := resolve_spec hr hcomponents hres
      obtain ⟨-, rfl⟩ | ⟨hunknown, -⟩ := hcases
      · refine (ih hns hstands hcs hw.blank hnext).imp_right ?_
        rintro ⟨front, stop, rest, made, rfl, hmade, hcut⟩
        exact ⟨c :: front, stop, rest, made, rfl, hmade, .step (hgo.symm ▸ hcut) hno⟩
      · have := hstands.there
        rw [hunknown] at this
        cases this
    · obtain ⟨f', hrefused, -⟩ := resolve_dots (h := h) (d := d) hns hdots
      rw [hgo, hone, hrefused] at hres
      cases hres
    · rw [hone] at hgo
      rw [hgo] at hres hnext
      obtain ⟨rfl, hnames, hunder⟩ := resolve_spec hr (forall_mem_snoc hcomponents hname.1) hres
      obtain ⟨hknown, rfl⟩ | ⟨-, hmade | ⟨hlast, -⟩⟩ := hcases
      · have hthere : Stands d₁ r (ns ++ [Text.trim c]) :=
          ⟨by simpa [Kind.exists?] using hknown, hunder⟩
        refine (ih hnames hthere hcs hw.step hnext).imp_right ?_
        rintro ⟨front, stop, rest, made, rfl, hmade, hcut⟩
        exact ⟨c :: front, stop, rest, made, rfl, hmade, .step (hgo.symm ▸ hcut) hno⟩
      · obtain ⟨hr₁, -, hfresh, loc, hnone, rfl, hloc, hrloc⟩ :=
          fresh_of_makeDirectory hr hns hstands.under hname hmade
        obtain ⟨hr', hg, front, stop, rest, made, rfl, hcut⟩ :=
          createFrom_fresh hr₁ hnames hfresh hcs hw.step hf hnext
        have hcut' := hcut.after hnone (leadsTo_of_grown hr' hnames hg hloc hrloc)
        exact .inr ⟨c :: front, stop, rest, loc :: made, rfl, List.cons_ne_nil _ _,
          .step (hgo.symm ▸ hcut') hno⟩
      · obtain rfl : cs = [] := by
          by_contra hne
          rw [hgo] at hlast
          exact hw.step.ne hcs hne hlast
        cases hnext

end

/-! ## The whole call -/

/-- A check changes nothing. -/
theorem ofExcept_bind_cases {α β : Type} {x : Except Failure α} {g : α → Action Disk β}
    (hrun : (Action.ofExcept x >>= g).exec d = (.error f, d')) :
    d' = d ∨ ∃ a, x = .ok a ∧ (g a).exec d = (.error f, d') := by
  cases x with
  | error e =>
    cases hrun
    exact .inl rfl
  | ok a => exact .inr ⟨a, rfl, hrun⟩

/-- A creation that is refused changed nothing, or it was refused on the way from a directory. -/
theorem create_refused_cases {path name : String}
    (hrun : (h.create path kind name).exec d = (.error f, d')) :
    d' = d ∨ (∃ full, h.directory d path = .ok full) ∧
      (h.createFrom (join path name) kind path (components (normalize name false))).exec d =
        (.error f, d') := by
  rw [create] at hrun
  obtain rfl | ⟨-, -, hrun⟩ := ofExcept_bind_cases hrun
  · exact .inl rfl
  rw [exec_ite] at hrun
  split at hrun
  swap
  · cases hrun
    exact .inl rfl
  rw [exec_bind, exec_get] at hrun
  dsimp only at hrun
  obtain rfl | ⟨full, hfull, hrun⟩ := ofExcept_bind_cases hrun
  · exact .inl rfl
  rw [exec_ite] at hrun
  split at hrun
  · cases hrun
    exact .inl rfl
  · rw [join_normalize_child, exec_bind] at hrun
    refine .inr ⟨⟨full, hfull⟩, ?_⟩
    rcases hloop :
      (h.createFrom (join path name) kind path (components (normalize name false))).exec d
      with ⟨e | a, t⟩
    · rw [hloop] at hrun
      cases hrun
      rfl
    · rw [hloop] at hrun
      cases hrun

/-- A filesystem whose root is a canonical directory of a disk, with any links on it, and a creation
in the directory at any path, of any kind and name, that is refused as misuse.  The disk is as it
was; or the name goes on with dots after a `front` without any, the dots are what is refused, and
all that is left behind are the directories that were missing on the way along `front`, so that
there is one at its end. -/
theorem create_refused (h : Host) (d : Disk) (hd : d.IsTree)
    (hroot : d.canonical h.root = .ok h.root) (hdir : (d.kindAt h.root).isDirectory)
    {path : String} (hpath : normalize path false = path) (kind : Kind) (name : String)
    {f : Failure} {d' : Disk} (hf : f.isMisuse)
    (hrun : (h.create path kind name).exec d = (.error f, d')) :
    d' = d ∨ ∃ front stop rest made, components (normalize name false) = front ++ stop :: rest ∧
      made ≠ [] ∧ CutShort h d d' path front stop f made := by
  obtain ⟨r, hr⟩ := rooted_of_canonical hd hroot hdir
  obtain ⟨ps, hps, rfl⟩ := exists_isPath hpath
  obtain rfl | ⟨⟨full, hfull⟩, hrun⟩ := create_refused_cases hrun
  · exact .inl rfl
  · obtain ⟨rfl, hnames, loc, hloc, hitem, hunder⟩ := directory_spec hr hps.component hfull
    have hstands : Stands d r ps := ⟨exists_of_isDirectory (kindAt_isDirectory.mpr
      ⟨loc, hloc, hitem⟩), leadsUnder_of_locate hloc hunder⟩
    exact createFrom_refused hr hnames hstands (fun _ => isComponent_of_mem)
      (within_join hps.component name) hf hrun

/-- A disk with one directory and nothing in it. -/
def emptyRoot : Disk where
  items := [(["r"], .directory)]

theorem emptyRoot_isTree : emptyRoot.IsTree :=
  isTree_of_items (by decide) (by decide) (by decide)

theorem create_refused_emptyRoot :
    let h : Host := { root := "/r" }
    emptyRoot.canonical h.root = .ok h.root ∧ (emptyRoot.kindAt h.root).isDirectory ∧
      normalize "" false = "" ∧ (Failure.invalidPath "a/.").isMisuse ∧
      (∃ d', (h.create "" .directory "a/./b").exec emptyRoot = (.error (.invalidPath "a/."), d') ∧
        (d' = emptyRoot ∨ ∃ front stop rest made,
          components (normalize "a/./b" false) = front ++ stop :: rest ∧ made ≠ [] ∧
            CutShort h emptyRoot d' "" front stop (.invalidPath "a/.") made)) := by
  intro h
  have hroot : emptyRoot.canonical h.root = .ok h.root := by decide +kernel
  have hdir : (emptyRoot.kindAt h.root).isDirectory := by decide +kernel
  have hpath : normalize "" false = "" := by decide +kernel
  have hrun : (h.create "" .directory "a/./b").exec emptyRoot =
    (.error (.invalidPath "a/."), emptyRoot.add ["r", "a"] .directory) := by decide +kernel
  exact ⟨hroot, hdir, hpath, rfl, _, hrun,
    create_refused h emptyRoot emptyRoot_isTree hroot hdir hpath .directory "a/./b" rfl hrun⟩

/-- Two dots after a name that is not there: the creation is refused, and the directory of that name
has been made. -/
theorem dots_leave_directory :
    let h : Host := { root := "/r" }
    let created := (h.create "" .file "a/..").exec emptyRoot
    emptyRoot.canonical h.root = .ok h.root ∧ created.1 = .error (.escapesRoot "a/..") ∧
      (Failure.escapesRoot "a/..").isMisuse = true ∧ emptyRoot.item? ["r", "a"] = none ∧
        created.2.item? ["r", "a"] = some .directory := by
  decide +kernel

end Strata.Host
