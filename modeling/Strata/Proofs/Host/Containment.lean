/-
# `Strata.Proofs.Host.Containment` — calls that stay in the root

What a call on an entry of a host filesystem may touch.  Looking up, listing,
opening and creating stay in the root on every disk, whatever links are there:
each of them checks every directory that it goes through.  Deleting and renaming
check the ends of their paths only, so they stay in the root where the parts of
the path before its end pass the check as well (`Passes`, `WayPasses`).
-/
import Strata.Proofs.Action
import Strata.Proofs.Host.Resolving

namespace Strata.Host

open Strata.Action Strata.Path Disk
open Location (Inside)

variable {h : Host} {d : Disk} {r : Location} {ps ns : List String} {path name full : String}

/-- The path passes the check. -/
def Passes (h : Host) (d : Disk) (path : String) : Prop := ∃ full, h.resolve d path = .ok full

/-- Below `base`, every part of the way to the last of the names passes the check. -/
def WayPasses (h : Host) (d : Disk) (base names : List String) : Prop :=
  ∀ front rest, names = front ++ rest → front ≠ [] → rest ≠ [] → h.Passes d (ofNames (base ++ front))

instance (h : Host) (d : Disk) (path : String) : Decidable (h.Passes d path) :=
  decidable_of_iff ((h.resolve d path).isOk = true) (by
    rw [Passes]
    cases h.resolve d path <;> simp [Except.isOk, Except.toBool])

theorem wayPasses_iff {base names : List String} : h.WayPasses d base names ↔
    ∀ i < names.length, 0 < i → h.Passes d (ofNames (base ++ names.take i)) := by
  refine ⟨fun hway i hi h0 => ?_, ?_⟩
  · refine hway _ (names.drop i) (List.take_append_drop i names).symm ?_ ?_
    · exact List.ne_nil_of_length_pos (by rw [List.length_take]; omega)
    · exact List.ne_nil_of_length_pos (by rw [List.length_drop]; omega)
  · rintro htake front rest rfl hfront hrest
    have := List.length_pos_iff.mpr hrest
    have hpass := htake front.length (by rw [List.length_append]; omega)
      (List.length_pos_iff.mpr hfront)
    rwa [List.take_left] at hpass

instance (h : Host) (d : Disk) (base names : List String) : Decidable (h.WayPasses d base names) :=
  decidable_of_iff _ wayPasses_iff.symm

/-! ## Looking -/

theorem directory_spec (hr : h.Rooted d r) (hps : ∀ n ∈ ps, IsComponent n)
    (hdir : h.directory d (ofNames ps) = .ok full) :
    full = textOf (r ++ ps) ∧ (∀ n ∈ ps, IsFileName n) ∧
      ∃ loc, d.locate true (textOf (r ++ ps)) = .ok loc ∧ d.item? loc = some .directory ∧
        r <+: loc := by
  obtain ⟨text, hres, hdir⟩ := bind_eq_ok.mp hdir
  obtain ⟨rfl, hnames, hunder⟩ := resolve_spec hr hps hres
  split at hdir
  · rename_i hkind
    cases hdir
    obtain ⟨loc, hloc, hitem⟩ := kindAt_isDirectory.mp hkind
    exact ⟨rfl, hnames, loc, hloc, hitem, hunder _ _ hloc hitem⟩
  · cases hdir

/-- A directory that is listed is the root or lies below it. -/
theorem children_inside (hr : h.Rooted d r) (hps : ∀ n ∈ ps, IsComponent n) {paths : List String}
    (hlist : h.children d (ofNames ps) = .ok paths) :
    ∃ loc, r <+: loc ∧ d.item? loc = some .directory ∧
      paths = ((d.namesIn loc).mergeSort fun a b => a ≤ b).map (join (ofNames ps)) := by
  obtain ⟨_, -, hlist⟩ := bind_eq_ok.mp hlist
  obtain ⟨full, hdir, hlist⟩ := bind_eq_ok.mp hlist
  obtain ⟨names, hnames, hlist⟩ := bind_eq_ok.mp hlist
  obtain ⟨rfl, -, loc, hloc, hitem, hunder⟩ := directory_spec hr hps hdir
  have hin : d.names (textOf (r ++ ps)) = .ok (d.namesIn loc) := by
    simp only [Disk.names, hloc, bind, Except.bind, hitem]
    rfl
  rw [hin] at hnames
  cases hnames
  cases hlist
  exact ⟨loc, hunder, hitem, rfl⟩

/-- What a lookup finds is the root or lies below it. -/
theorem descend_inside (hr : h.Rooted d r) (hps : ∀ n ∈ ps, IsComponent n) {cs : List String}
    {found : String} (hfound : Lookup.descend (h.kindOf d) (ofNames ps) cs = .ok (some found)) :
    ∃ ns loc item, found = ofNames ns ∧ d.locate true (textOf (r ++ ns)) = .ok loc ∧
      d.item? loc = some item ∧ r <+: loc := by
  induction cs generalizing ps with
  | nil =>
    obtain ⟨kind, hkind, hfound⟩ := bind_eq_ok.mp hfound
    obtain ⟨full, hres, hkind⟩ := bind_eq_ok.mp hkind
    obtain ⟨rfl, -, hunder⟩ := resolve_spec hr hps hres
    cases hkind
    split at hfound
    · rename_i hexists
      cases hfound
      obtain ⟨loc, item, hloc, hitem⟩ := exists_of_kindAt hexists
      exact ⟨ps, loc, item, rfl, hloc, hitem, hunder _ _ hloc hitem⟩
    · cases hfound
  | cons c cs ih =>
    obtain ⟨kind, hkind, hfound⟩ := bind_eq_ok.mp hfound
    rw [join_eq_ofNames hps] at hfound
    cases kind with
    | directory =>
      exact ih (List.forall_mem_append.mpr ⟨hps, fun n => isComponent_of_mem⟩) hfound
    | file => cases hfound
    | unknown => cases hfound

theorem child_inside (hr : h.Rooted d r) (hps : ∀ n ∈ ps, IsComponent n) {found : String}
    (hfound : h.child d (ofNames ps) name = .ok (some found)) :
    ∃ ns loc item, found = ofNames ns ∧ d.locate true (textOf (r ++ ns)) = .ok loc ∧
      d.item? loc = some item ∧ r <+: loc := by
  rw [child, Lookup.child] at hfound
  split at hfound
  · cases hfound
  · exact descend_inside hr hps hfound

/-! ## Actions on the disk -/

/-- Run on `d`, the call leaves everything outside of `r` alone; where it answers, its answer and
the disk that it leaves are related by `Q`. -/
def Confined {α : Type} (r : Location) (d : Disk) (x : Action Disk α) (Q : α → Disk → Prop) : Prop :=
  Contained r d (x.exec d).2 ∧ ∀ a, (x.exec d).1 = .ok a → Q a (x.exec d).2

section
variable {α β : Type} {x : Action Disk α} {f : α → Action Disk β} {Q : α → Disk → Prop}
  {R : β → Disk → Prop} {d' : Disk}

theorem Confined.pure (hd : d.IsTree) {a : α} (hq : Q a d) : Confined r d (pure a) Q := by
  refine ⟨.refl hd, ?_⟩
  rintro _ ⟨⟩
  exact hq

theorem Confined.throw (hd : d.IsTree) (e : Failure) : Confined r d (throw e) Q :=
  ⟨.refl hd, fun _ he => (by cases he)⟩

theorem Confined.bind (hx : Confined r d x Q)
    (hf : ∀ a d', Contained r d d' → Q a d' → Confined r d' (f a) R) :
    Confined r d (x >>= f) R := by
  rw [Confined, exec_bind]
  rcases hexec : x.exec d with ⟨_ | a, d'⟩
  · rw [Confined, hexec] at hx
    exact ⟨hx.1, fun _ he => (by cases he)⟩
  · rw [Confined, hexec] at hx
    have h := hf a d' hx.1 (hx.2 a rfl)
    exact ⟨hx.1.trans h.1, h.2⟩

theorem Confined.get_bind {f : Disk → Action Disk β} (h : Confined r d (f d) R) :
    Confined r d (get >>= f) R := h

theorem Confined.ofExcept_bind (hd : d.IsTree) {res : Except Failure α}
    (h : ∀ a, res = .ok a → Confined r d (f a) R) : Confined r d (Action.ofExcept res >>= f) R := by
  cases res with
  | error e => exact Confined.throw hd e
  | ok a => exact h a rfl

theorem Confined.ofIo_bind (hd : d.IsTree) {res : Except IoError α}
    (h : ∀ a, res = .ok a → Confined r d (f a) R) : Confined r d (Action.ofIo res >>= f) R := by
  cases res with
  | error e => exact Confined.throw hd (.io e)
  | ok a => exact h a rfl

theorem Confined.set_last (hc : Contained r d d') : Confined r d (set d') fun _ _ => True :=
  ⟨hc, fun _ _ => trivial⟩

theorem Confined.set_bind {f : PUnit → Action Disk β} (hc : Contained r d d')
    (h : Confined r d' (f ⟨⟩) R) : Confined r d (set d' >>= f) R :=
  ⟨hc.trans h.1, h.2⟩

theorem Confined.throw_bind (hd : d.IsTree) (e : Failure) {f : α → Action Disk β} :
    Confined r d (MonadExcept.throw e >>= f) R :=
  ⟨.refl hd, fun _ he => (by cases he)⟩

theorem Confined.ite {c : Prop} [Decidable c] {y : Action Disk α} (hx : c → Confined r d x Q)
    (hy : ¬c → Confined r d y Q) : Confined r d (if c then x else y) Q := by
  split
  · exact hx ‹_›
  · exact hy ‹_›

end

/-! ## Opening -/

/-- A file that is opened lies below the root, and no other file is emptied. -/
theorem openFile_confined (hr : h.Rooted d r) (hps : ∀ n ∈ ps, IsComponent n) (mode : OpenMode) :
    Confined r d (h.openFile (ofNames ps) mode) fun f _ =>
      ∃ loc, Inside r loc ∧ d.item? loc = some (.file f.number) := by
  have hd := hr.tree
  refine .ofExcept_bind hd fun _ _ => .get_bind (.ofExcept_bind hd fun full hres => ?_)
  obtain ⟨rfl, -, hunder⟩ := resolve_spec hr hps hres
  refine .ite (fun _ => .ofIo_bind hd fun opened hopen => ?_) fun _ => .throw_bind hd _
  obtain ⟨number, d'⟩ := opened
  obtain ⟨hc, hfile⟩ := openFile_spec hd hr.directory hunder hopen
  exact .set_bind hc (.pure hc.tree hfile)

/-! ## Deleting -/

/-- A part of the way that passes the check leads under the root, if it leads anywhere. -/
theorem WayPasses.leadsUnder (hr : h.Rooted d r) (hps : ∀ n ∈ ps, IsComponent n)
    (hunder : d.LeadsUnder r (r ++ ps)) {front rest : List String} (hrest : rest ≠ [])
    (hfront : ∀ n ∈ front, IsComponent n) (hway : h.WayPasses d ps (front ++ rest)) :
    d.LeadsUnder r (r ++ (ps ++ front)) := by
  by_cases h0 : front = []
  · rwa [h0, List.append_nil]
  · obtain ⟨_, hpass⟩ := hway front rest rfl h0 hrest
    exact (resolve_spec hr (List.forall_mem_append.mpr ⟨hps, hfront⟩) hpass).2.2

/-- What is deleted lies below the root, if every directory on the way to it passes the check. -/
theorem delete_confined (hr : h.Rooted d r) (hps : ∀ n ∈ ps, IsComponent n)
    (hway : h.WayPasses d ps (components (normalize name false))) :
    Confined r d (h.delete (ofNames ps) name) fun _ _ => True := by
  have hd := hr.tree
  refine .get_bind (.ofExcept_bind hd fun _ _ => .ofExcept_bind hd fun full hdir => ?_)
  obtain ⟨rfl, -, loc, hloc, -, hunder⟩ := directory_spec hr hps hdir
  refine .ite (fun _ => .pure hd trivial) fun hne => .ofExcept_bind hd fun target htarget => ?_
  have hms : ∀ m ∈ components (normalize name false), IsComponent m := fun _ => isComponent_of_mem
  have h0 : normalize name false ≠ "" := by simpa using hne
  obtain ⟨front, last, hsplit⟩ :=
    (List.eq_nil_or_concat' _).resolve_left (components_normalize_ne_nil h0)
  rw [join_normalize_child, join_eq_ofNames hps, hsplit, ← List.append_assoc] at htarget
  rw [hsplit] at hms hway
  have hfront : ∀ n ∈ front, IsComponent n := fun n hn => hms n (List.mem_append_left _ hn)
  obtain ⟨rfl, hnames, -⟩ := resolve_spec hr
    (forall_mem_snoc (List.forall_mem_append.mpr ⟨hps, hfront⟩) (hms last (by simp))) htarget
  have hplace := hway.leadsUnder hr hps (leadsUnder_of_locate hloc hunder) (by simp) hfront
  have hlast := hnames last (by simp)
  have hbefore := hr.isFileName fun n hn => hnames n (List.mem_append_left _ hn)
  rw [← List.append_assoc]
  dsimp only
  split
  · exact .pure hd trivial
  · exact .throw_bind hd _
  · refine .ofIo_bind hd fun d' hremove => ?_
    have hc := removeTree_contained hd hbefore hlast hplace hremove
    exact .set_bind hc (.pure hc.tree trivial)
  · refine .ofIo_bind hd fun d' hremove => ?_
    have hc := removeFile_contained hd hbefore hlast hplace hremove
    exact .set_bind hc (.pure hc.tree trivial)

/-! ## Creating -/

/-- There is a file or a directory at the names, and it is under the root. -/
structure Stands (d : Disk) (r : Location) (ns : List String) : Prop where
  there : (d.kindAt (textOf (r ++ ns))).exists? = true
  under : d.LeadsUnder r (r ++ ns)

theorem exists_of_isDirectory {k : Kind} (hk : k.isDirectory) : k.exists? = true := by
  cases k <;> simp_all [Kind.isDirectory, Kind.exists?]

theorem exists_of_isFile {k : Kind} (hk : k.isFile) : k.exists? = true := by
  cases k <;> simp_all [Kind.isFile, Kind.exists?]

/-- Going along the components makes what is missing in directories under the root only: each of
them was found there, or was made there just before. -/
theorem createFrom_confined (hr : h.Rooted d r) (hns : ∀ n ∈ ns, IsFileName n) (hstands : Stands d r ns)
    (target : String) (kind : Kind) {cs : List String} (hcs : ∀ c ∈ cs, IsComponent c) :
    Confined r d (h.createFrom target kind (ofNames ns) cs) fun _ _ => True := by
  induction cs generalizing d ns with
  | nil => exact .pure hr.tree trivial
  | cons c cs ih =>
    have hd := hr.tree
    have hcomponents : ∀ n ∈ ns, IsComponent n := fun n hn => (hns n hn).1
    obtain ⟨hc, hcs⟩ := List.forall_mem_cons.mp hcs
    rw [createFrom]
    refine .get_bind (.ofExcept_bind hd fun full hres => ?_)
    rw [join_eq_ofNames hcomponents] at hres ⊢
    rcases components_of_component hc with hblank | ⟨n, hname, hone⟩
    · -- a blank name leads nowhere else, and there is something here
      rw [hblank, List.append_nil] at hres ⊢
      obtain ⟨rfl, -, -⟩ := resolve_spec hr hcomponents hres
      split
      · rename_i hunknown
        have := hstands.there
        rw [hunknown] at this
        cases this
      · exact .ite (fun _ => ih hr hns hstands hcs) fun _ => .throw_bind hd _
    · rw [hone] at hres ⊢
      obtain ⟨rfl, hnames, hunder⟩ := resolve_spec hr (forall_mem_snoc hcomponents hname.1) hres
      have hlast := hnames n (by simp)
      have hbefore := hr.isFileName hns
      split
      · refine .ite (fun _ => .ofIo_bind hd fun d' hmake => ?_) fun _ =>
          .ofIo_bind hd fun d' hmake => ?_
        · rw [← List.append_assoc] at hmake
          obtain ⟨hc, -, loc, -, -, hloc, hitem, hrloc, -⟩ :=
            makeDirectory_spec hd hbefore hlast hstands.under hmake
          rw [List.append_assoc] at hloc
          exact .set_bind hc (ih (hr.keep hc) hnames
            ⟨exists_of_isDirectory (kindAt_isDirectory.mpr ⟨loc, hloc, hitem⟩),
              leadsUnder_of_locate hloc hrloc⟩ hcs)
        · rw [← List.append_assoc] at hmake
          obtain ⟨hc, -, loc, number, hloc, hitem, hrloc⟩ :=
            makeFile_spec hd hbefore hlast hstands.under hmake
          rw [List.append_assoc] at hloc
          exact .set_bind hc (ih (hr.keep hc) hnames
            ⟨exists_of_isFile (kindAt_isFile.mpr ⟨loc, number, hloc, hitem⟩),
              leadsUnder_of_locate hloc hrloc⟩ hcs)
      · rename_i hknown
        refine .ite (fun _ => ih hr hnames ⟨?_, hunder⟩ hcs) fun _ => .throw_bind hd _
        simpa [Kind.exists?] using hknown

theorem create_confined (hr : h.Rooted d r) (hps : ∀ n ∈ ps, IsComponent n) (kind : Kind)
    (name : String) : Confined r d (h.create (ofNames ps) kind name) fun _ _ => True := by
  have hd := hr.tree
  refine .ofExcept_bind hd fun _ _ => .ite (fun _ => .get_bind (.ofExcept_bind hd fun full hdir => ?_))
    fun _ => .throw_bind hd _
  obtain ⟨rfl, hnames, loc, hloc, hitem, hunder⟩ := directory_spec hr hps hdir
  refine .ite (fun _ => .throw_bind hd _) fun _ => ?_
  refine .bind (createFrom_confined hr hnames ⟨exists_of_isDirectory (kindAt_isDirectory.mpr
    ⟨loc, hloc, hitem⟩), leadsUnder_of_locate hloc hunder⟩ _ kind fun _ => isComponent_of_mem) ?_
  intro _ d' hc _
  exact .pure hc.tree trivial

/-! ## Renaming -/

/-- The directory that an entry is in is under the root, if it passes the check. -/
theorem exists_directory_under (hr : h.Rooted d r) (hps : ∀ n ∈ ps, IsComponent n)
    (hpass : h.Passes d (ofNames ps)) (hname : IsFileName name)
    (hexists : (d.kindAt (textOf (r ++ (ps ++ [name])))).exists? = true) :
    (∀ n ∈ r ++ ps, IsFileName n) ∧
      ∃ dir, d.locate true (textOf (r ++ ps)) = .ok dir ∧ r <+: dir := by
  obtain ⟨_, hpass⟩ := hpass
  obtain ⟨-, hnames, hunder⟩ := resolve_spec hr hps hpass
  have hall := hr.isFileName hnames
  obtain ⟨loc, item, hloc, -⟩ := exists_of_kindAt hexists
  rw [← List.append_assoc] at hloc
  obtain ⟨dir, hdir, hdirectory⟩ := locate_front hr.tree hall hname hloc
  exact ⟨hall, dir, hdir, hunder dir _ hdir hdirectory⟩

/-- All directories on a way from the root that passes the check lead under the root. -/
theorem WayPasses.front_leadsUnder (hr : h.Rooted d r) (hns : ∀ n ∈ ns, IsComponent n)
    (hway : h.WayPasses d [] (ns ++ [name])) {front : List String} (hfront : front <+: ns) :
    d.LeadsUnder r (r ++ front) := by
  obtain ⟨rest, rfl⟩ := hfront
  rw [List.append_assoc] at hway
  have hroot : d.LeadsUnder r (r ++ []) := by
    rw [List.append_nil]
    exact leadsUnder_of_locate hr.found List.prefix_rfl
  exact hway.leadsUnder hr (List.forall_mem_nil _) hroot (by simp)
    fun n hn => hns n (List.mem_append_left _ hn)

/-- What is moved lies below the root, and so does the place that it is moved to, if the directory
that the entry is in and all those on the way to the new path pass the check. -/
theorem rename_confined (hr : h.Rooted d r) (hps : ∀ n ∈ ps, IsComponent n) (target : String)
    (hsource : h.Passes d (parentOrRoot (ofNames ps)))
    (hway : h.WayPasses d [] (components (normalize target false))) :
    Confined r d (h.rename (ofNames ps) target) fun _ _ => True := by
  have hd := hr.tree
  refine .ofExcept_bind hd fun _ _ => .ite (fun _ => .throw_bind hd _) fun hne => ?_
  refine .ite (fun _ => .throw_bind hd _) fun hdest =>
    .get_bind (.ofExcept_bind hd fun source hres => ?_)
  obtain ⟨front, last, rfl⟩ := (List.eq_nil_or_concat' ps).resolve_left (by
    rintro rfl
    exact hne rfl)
  rw [parentOrRoot_ofNames_snoc (hps last (by simp))] at hsource
  obtain ⟨rfl, hsnames, -⟩ := resolve_spec hr hps hres
  refine .ite (fun hexists => .ofExcept_bind hd fun goal hgoal => ?_) fun _ => .throw_bind hd _
  refine .ite (fun _ => .throw_bind hd _) fun _ => ?_
  obtain ⟨hbefore, dir, hdir, hdirunder⟩ := exists_directory_under hr
    (fun n hn => hps n (List.mem_append_left _ hn)) hsource (hsnames last (by simp)) hexists
  have hms : ∀ m ∈ components (normalize target false), IsComponent m := fun _ => isComponent_of_mem
  have h0 : normalize target false ≠ "" := fun h0 => hdest (by simp [h0])
  obtain ⟨mfront, mlast, hsplit⟩ :=
    (List.eq_nil_or_concat' _).resolve_left (components_normalize_ne_nil h0)
  rw [← ofNames_components_normalize, hsplit] at hgoal
  rw [hsplit] at hms hway
  obtain ⟨rfl, hgnames, -⟩ := resolve_spec hr hms hgoal
  have hmnames : ∀ m ∈ mfront, IsFileName m := fun m hm => hgnames m (List.mem_append_left _ hm)
  rcases hmade : d.makeDirectories (parentOrRoot (textOf (r ++ (mfront ++ [mlast])))) with ⟨made, d'⟩
  rw [← List.append_assoc] at hmade
  obtain ⟨hc, hgrown, hready⟩ := makeDirectories_parent_spec hd hr.directory hr.found hmnames
    (hgnames mlast (by simp))
    (fun ks => hway.front_leadsUnder hr fun m hm => hms m (List.mem_append_left _ hm)) hmade
  refine .set_bind hc (.ofIo_bind hc.tree fun _ hok => .ofIo_bind hc.tree fun d'' hrename => ?_)
  rw [← List.append_assoc, ← List.append_assoc] at hrename
  -- what was made on the way leaves the directory that the entry is in where it was
  exact .set_last (rename_contained hc.tree hbefore
    (hr.isFileName hmnames) (hsnames last (by simp))
    (hgnames mlast (by simp)) (leadsUnder_of_locate (locate_of_grown hgrown hbefore hdir) hdirunder)
    (hready hok) hrename)

end Strata.Host
