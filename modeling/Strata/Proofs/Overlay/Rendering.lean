/-
# `Strata.Proofs.Overlay.Rendering` — a new union that shows what plain layers hold

The layers of a union need not keep their trees themselves: one of them may be a
union again.  All that a union does with its layers when it looks paths up and
lists directories is to merge their listings.  So if its merges are those of some
plain layers, each offer perhaps through another union, then a new union answers
as one over the plain layers would: it `Renders` them.  Three calls say what somebody
sees who asks for a path: `sightAt`, `listingAt` and `bytesAt`.
-/
import Strata.Overlay.Filesystem
import Strata.Proofs.Overlay.Walk

namespace Strata

open Strata.Action Strata.Path

/-! ## Entries through unions -/

namespace Entry

/-- The entry that an entry stands for, through all unions. -/
def core : Entry → Entry
  | .overlayEntry _ _ _ source _ => source.core
  | e => e

/-- What is in the file, if the entry stands for one of a memory filesystem. -/
def bytes (s : Store) : Entry → Bytes
  | .memory id path =>
    match (s.memory id).tree.find? path with
    | some (.file data _) => data
    | _ => []
  | .overlayEntry _ _ _ source _ => source.bytes s
  | _ => []

theorem kind_core (s : Store) (e : Entry) : e.core.kind s = e.kind s := by
  induction e with
  | overlayEntry id slot path source layer ih => exact ih
  | _ => rfl

theorem bytes_core (s : Store) (e : Entry) : e.core.bytes s = e.bytes s := by
  induction e with
  | overlayEntry id slot path source layer ih => exact ih
  | _ => rfl

/-- Wherever `I` holds, the entry is of the kind that it is in the store, and a file can be read. -/
structure Readable (P : Provider Store Filesystem Entry Stream) (I : Store → Prop) (s : Store)
    (e : Entry) : Prop where
  kind : ∀ t, I t → P.kind e t = e.kind s
  opens : e.kind s = .file → ∀ t, I t → ∃ t',
    (P.openStream e .reading).exec t = (.ok (.buffer (.reader (e.bytes s)) none), t') ∧ I t'

end Entry

namespace Overlay

/-! ## What somebody sees -/

section
variable {σ F E S : Type} (P : Provider σ F E S)

/-- Where the entry is and what it is. -/
def sight (node : Node E) (s : σ) : String × Kind := (node.path, kind P node s)

/-- The entry at a path, as it is seen. -/
def sightAt (path : String) : Call σ F E (Option (String × Kind)) := do
  let found ← entry P path
  let (s, _) ← get
  return found.map fun node => sight P node s

/-- The entries of the directory at a path, as they are seen. -/
def listingAt (path : String) : Call σ F E (Option (List (String × Kind))) := do
  match ← entry P path with
  | some node =>
    let entries ← children P node
    let (s, _) ← get
    return some (entries.map fun e => sight P e s)
  | none => return none

/-- The contents of the file at a path. -/
def bytesAt (path : String) : Call σ F E (Option Bytes) := do
  match ← entry P path with
  | some node => return some (← (Overlay.provider P).readContents node)
  | none => return none

end

/-! ## Offers through unions -/

/-- The offer of the entry that the offer stands for, whatever layer it is from. -/
def Offer.core (o : Offer Entry) : Offer Entry := ⟨o.path, o.source.core, 0⟩

/-- The entry that a node stands for; the root stands for none. -/
def Node.core (node : Node Entry) : Option (Offer Entry) := node.offer?.map Offer.core

/-- A table of the entries that offers stand for. -/
def cores (table : List (String × Offer Entry)) : List (String × Offer Entry) :=
  table.map fun e => (e.1, e.2.core)

theorem lookup_map_snd {α β : Type} (g : α → β) (l : List (String × α)) (name : String) :
    (l.map fun e => (e.1, g e.2)).lookup name = (l.lookup name).map g := by
  induction l with
  | nil => rfl
  | cons e l ih =>
      rw [List.map_cons, Table.lookup_cons, Table.lookup_cons, ih]
      split <;> rfl

theorem kindAt_core (s : Store) (place : Option (Offer Entry)) :
    kindAt s (place.map Offer.core) = kindAt s place := by
  cases place with
  | none => rfl
  | some o => exact o.source.kind_core s

/-- What the layers allow together. -/
def allowed (s : Store) (layers : List Filesystem) : Operations :=
  layers.foldl (fun acc f => acc ∪ f.allows s) .none

/-- Wherever `I` holds, the union over the layers may be asked what the plain layers of the store
allow together, and merges to what they merge to, with entries that can be read. -/
structure Renders (P : Provider Store Filesystem Entry Stream) (I : Store → Prop) (s : Store)
    (plain layers : List Filesystem) : Prop where
  operations : ∀ t, I t → ∀ o : Overlay Filesystem Entry, o.layers = layers →
    operations P o t = allowed s plain
  merge : ∀ t, I t → ∀ path, Path.Clean path → ∃ table t',
    (merge P false layers path).exec t = (.ok table, t') ∧ I t' ∧
      cores table = cores (merged s plain path) ∧ ∀ e ∈ table, e.2.source.Readable P I s

/-- The union over the layers tells case apart and lives, and the node has nothing listed yet. -/
structure Pristine (P : Provider Store Filesystem Entry Stream) (I : Store → Prop) (s : Store)
    (layers : List Filesystem) (w : Store × Overlay Filesystem Entry) (node : Node Entry) :
    Prop where
  world : I w.1
  layers : w.2.layers = layers
  fold : w.2.fold = false
  live : w.2.released = false
  slot : node.slot < w.2.listings.size
  dirty : (w.2.listing node.slot).dirty = true
  path : Path.Clean node.path
  source : ∀ e, node.source? = some e → e.Readable P I s

variable {P : Provider Store Filesystem Entry Stream} {I : Store → Prop} {s : Store}
  {plain layers : List Filesystem} {w : Store × Overlay Filesystem Entry} {node : Node Entry}

theorem pristine_root {t : Store} (hI : I t) (policy : Policy) :
    Pristine P I s layers (t, { layers := layers, policy := policy }) .root :=
  ⟨hI, rfl, rfl, rfl, Nat.zero_lt_one, rfl, clean_empty, fun _ h => by cases h⟩

/-! ## Walking through a new union -/

section
variable (hr : Renders P I s plain layers) (hs : ∀ f ∈ plain, f.CleanTree s)

theorem Pristine.kind_eq (h : Pristine P I s layers w node) :
    kind P node w.1 = kindAt s node.core := by
  cases node with
  | root => rfl
  | entry child =>
      rw [Node.core, kindAt_core]
      exact (h.source _ rfl).kind w.1 h.world

theorem Pristine.exec_requireDirectory (h : Pristine P I s layers w node) :
    (requireDirectory P node).exec w =
      (if (kindAt s node.core).isDirectory then .ok () else .error (.notADirectory node.path),
        w) :=
  exec_requireDirectory_of_kind h.kind_eq

include hr hs

/-- A node is listed by a merge, and the entries of the listing have nothing listed yet. -/
theorem Pristine.exec_listed (h : Pristine P I s layers w node) :
    ∃ children w', (listed P node).exec w = (.ok children, w') ∧
      (children.map fun c => (c.1, c.2.offer.core)) = cores (merged s plain node.path) ∧
      ∀ c ∈ children, Pristine P I s layers w' (.entry c.2) := by
  obtain ⟨table, t', hmerge, hI, hcores, hread⟩ := hr.merge w.1 h.world node.path h.path
  have hassign : ((assignSlots w.2.listings.size table).map fun c => (c.1, c.2.offer.core))
      = cores table := by
    conv_rhs => rw [← map_offer_assignSlots w.2.listings.size table]
    rw [cores, List.map_map]
    rfl
  refine ⟨assignSlots w.2.listings.size table, (t', w.2.install node.slot table), ?_,
    hassign.trans hcores, ?_⟩
  · simp [listed, scan, h.dirty, h.layers, h.fold, hmerge, listing_install _ _ h.slot]
  · rintro ⟨name, child⟩ hc
    obtain ⟨hle, hat⟩ := getElem?_of_mem_assignSlots hc
    have hlt : child.slot - w.2.listings.size < table.length :=
      (List.getElem?_eq_some_iff.mp hat).1
    have hmem : (name, child.offer.core) ∈ cores (merged s plain node.path) := by
      rw [← hcores, ← hassign]
      exact List.mem_map.mpr ⟨_, hc, rfl⟩
    obtain ⟨⟨n, o⟩, ho, heq⟩ := List.mem_map.mp hmem
    have hmade := made_merged hs h.path
    have hpath : child.offer.path = ofNames (components node.path ++ [n]) :=
      (congrArg (fun e => e.2.path) heq).symm.trans (hmade.path n o ho)
    refine ⟨hI, h.layers, h.fold, h.live, ?_, ?_, ?_, ?_⟩
    · rw [size_install]
      show child.slot < _
      omega
    · have hne : child.slot ≠ node.slot := fun he => absurd h.slot (by omega)
      show ((w.2.install _ _).listing child.slot).dirty = true
      rw [listing_install _ _ h.slot, if_neg hne, listing_of_size_le _ hle]
      rfl
    · rw [Node.path, hpath]
      exact clean_ofNames (forall_mem_snoc (fun _ => h.path.isName) (hmade.isName n o ho))
    · rintro _ ⟨⟩
      exact hread _ (List.mem_of_getElem? hat)

/-- The walk arrives at what the names lead to in the plain layers. -/
theorem Pristine.exec_descend (rest : List String) (hrest : ∀ c ∈ rest, IsComponent c)
    {place : Option (Offer Entry)} (h : Pristine P I s layers w node)
    (hplace : node.core = place.map Offer.core) :
    ∃ r w', (descend P node rest).exec w = (r, w') ∧
      r.map (·.map Node.core)
        = (follow s plain (components node.path) place rest).map (·.map (·.map Offer.core)) ∧
      ∀ m, r = .ok (some m) → Pristine P I s layers w' m := by
  induction rest generalizing node place w with
  | nil =>
      refine ⟨.ok (some node), w, rfl, ?_, ?_⟩
      · exact congrArg (fun place => Except.ok (some place)) hplace
      · rintro m ⟨⟩
        exact h
  | cons c rest ih =>
      rw [descend, follow]
      simp only [exec_bind, h.exec_requireDirectory, hplace, kindAt_core,
        h.path.ofNames_components]
      cases hk : (kindAt s place).isDirectory with
      | false => exact ⟨_, w, rfl, rfl, by rintro m ⟨⟩⟩
      | true =>
          obtain ⟨children, w', hlisted, hchildren, hfresh⟩ := h.exec_listed hr hs
          -- under the next name, the listing has what the plain layers provide
          have hnext : (children.lookup c).map (·.offer.core)
              = (provided s plain (ofNames (components node.path ++ [c]))).map Offer.core := by
            rw [← lookup_merged_below hs h.path (hrest c (by simp)), ← lookup_map_snd,
              ← lookup_map_snd Offer.core, hchildren, cores]
          simp only [if_true, listedChild, exec_bind, exec_pure, hlisted]
          cases hc : children.lookup c with
          | none =>
              rw [hc, Option.map_none, eq_comm, Option.map_eq_none_iff] at hnext
              rw [hnext]
              exact ⟨_, w', rfl, rfl, by rintro m ⟨⟩⟩
          | some child =>
              rw [hc, Option.map_some, eq_comm, Option.map_eq_some_iff] at hnext
              obtain ⟨o, ho, hcore⟩ := hnext
              have hpath : components child.offer.path = components node.path ++ [c] := by
                have hp : o.path = child.offer.path := (congrArg Offer.path hcore :)
                obtain ⟨_, -, -, -, heq⟩ := provided_eq_some.mp ho
                rw [← hp, heq, components_ofNames]
                exact forall_mem_snoc (fun _ => isComponent_of_mem) (hrest c (by simp))
              have := ih (fun d hd => hrest d (List.mem_cons_of_mem c hd))
                (hfresh _ (mem_of_lookup hc))
                (show _ = (some o).map Offer.core from congrArg some hcore.symm)
              rw [Node.path, hpath] at this
              rw [ho]
              exact this

/-- The entry at a path is what is found in the plain layers. -/
theorem Pristine.exec_entry (h : Pristine P I s layers w .root) (path : String) :
    ∃ r w', (entry P path).exec w = (r, w') ∧
      r.map (·.map Node.core) = (found s plain path).map (·.map (·.map Offer.core)) ∧
      ∀ m, r = .ok (some m) → Pristine P I s layers w' m := by
  rw [entry, found]
  simp only [exec_bind, exec_current, h.fold, exec_ite, exec_pure, String.isEmpty_iff]
  by_cases h0 : normalize path false = ""
  · rw [if_pos h0, h0]
    refine ⟨_, w, rfl, rfl, ?_⟩
    rintro m ⟨⟩
    exact h
  · have hne := components_normalize_ne_nil h0
    obtain ⟨c, cs, hc⟩ := List.exists_cons_of_ne_nil hne
    have hdir : (kindAt s (Node.root : Node Entry).core).isDirectory = true := rfl
    have hwalk := h.exec_descend hr hs (components (normalize path false))
      (fun _ => isComponent_of_mem) (show _ = Option.map Offer.core none from rfl)
    rw [if_neg h0, lookup]
    simp only [exec_bind, exec_requireLive h.live, h.exec_requireDirectory, hdir, if_true]
    rw [hc] at hwalk ⊢
    exact hwalk

end

/-! ## What is seen in a new union -/

/-- What somebody sees at a place of the plain layers. -/
def shown (s : Store) : Option (Offer Entry) → String × Kind
  | none => ("", .directory)
  | some o => (o.path, o.source.kind s)

/-- What is read at a place of the plain layers. -/
def readAt (s : Store) (plain : List Filesystem) (place : Option (Offer Entry)) :
    Except Failure Bytes :=
  (OpenMode.reading.checkAgainst (allowed s plain) (shown s place).1).bind fun _ =>
    if (shown s place).2.isFile then .ok ((place.map fun o => o.source.bytes s).getD [])
    else .error (.notAFile (shown s place).1)

/-- What is listed at a place of the plain layers. -/
def listAt (s : Store) (plain : List Filesystem) (place : Option (Offer Entry)) :
    Except Failure (List (String × Kind)) :=
  (contents s plain (shown s place).1 place (merged s plain (shown s place).1)).map
    (·.map (shown s))

/-- What a call answers where something was found; where nothing was, it answers nothing. -/
def atPlace {α β : Type} (found : Except Failure (Option α)) (call : α → Except Failure β) :
    Except Failure (Option β) :=
  found.bind fun r =>
    match r with
    | some a => (call a).map some
    | none => .ok none

theorem shown_core (s : Store) (place : Option (Offer Entry)) :
    shown s (place.map Offer.core) = shown s place := by
  cases place with
  | none => rfl
  | some o => exact congrArg (Prod.mk o.path) (o.source.kind_core s)

theorem readAt_core (s : Store) (plain : List Filesystem) (place : Option (Offer Entry)) :
    readAt s plain (place.map Offer.core) = readAt s plain place := by
  rw [readAt, readAt, shown_core, Option.map_map]
  cases place with
  | none => rfl
  | some o =>
      rw [Option.map_some, Option.map_some, Function.comp_apply, Offer.core, Entry.bytes_core]

theorem allowed_covers (hs : ∀ f ∈ plain, f.CleanTree s) (op : Operation) :
    (allowed s plain).covers (.only op) = plain.any fun f => (f.allows s).covers (.only op) := by
  have hops : operations (Store.provider 1) { layers := plain } s = allowed s plain :=
    List.foldl_ext _ _ _ fun acc f hf => congrArg (acc ∪ ·) ((hs f hf).operations _)
  rw [← hops]
  exact operations_covers_of_trees hs 0 (w := (s, { layers := plain })) (.refl s) rfl op

theorem Pristine.sight_eq (h : Pristine P I s layers w node) :
    sight P node w.1 = shown s node.core := by
  rw [sight, h.kind_eq]
  cases node <;> rfl

theorem Pristine.path_eq (h : Pristine P I s layers w node) : node.path = (shown s node.core).1 := by
  rw [← h.sight_eq]
  rfl

section
variable (hr : Renders P I s plain layers) (hs : ∀ f ∈ plain, f.CleanTree s)
include hr hs

/-- What asking for a path comes to. -/
theorem Pristine.entry_cases (h : Pristine P I s layers w .root) (path : String) :
    (∃ e w', (entry P path).exec w = (.error e, w') ∧ found s plain path = .error e) ∨
    (∃ w', (entry P path).exec w = (.ok none, w') ∧ found s plain path = .ok none) ∨
    ∃ node place w', (entry P path).exec w = (.ok (some node), w') ∧
      found s plain path = .ok (some place) ∧ node.core = place.map Offer.core ∧
      Pristine P I s layers w' node := by
  obtain ⟨r, w', he, hfound, hfresh⟩ := h.exec_entry hr hs path
  rw [he]
  cases hf : found s plain path with
  | error e =>
      rw [hf] at hfound
      cases r with
      | error e' => exact .inl ⟨e, w', by rw [Except.error.inj hfound], rfl⟩
      | ok r => cases hfound
  | ok place =>
      rw [hf] at hfound
      cases r with
      | error e' => cases hfound
      | ok r =>
          have hnode : r.map Node.core = place.map (·.map Offer.core) := Except.ok.inj hfound
          cases place with
          | none =>
              obtain rfl := Option.map_eq_none_iff.mp hnode
              exact .inr (.inl ⟨w', rfl, rfl⟩)
          | some place =>
              obtain ⟨node, rfl, hcore⟩ := Option.map_eq_some_iff.mp hnode
              exact .inr (.inr ⟨node, place, w', rfl, rfl, hcore, hfresh node rfl⟩)

theorem Pristine.sightAt_eq (h : Pristine P I s layers w .root) (path : String) :
    ((sightAt P path).exec w).1 = (found s plain path).map (·.map (shown s)) := by
  rw [sightAt]
  obtain ⟨e, w', he, hf⟩ | ⟨w', he, hf⟩ | ⟨node, place, w', he, hf, hcore, hnode⟩ :=
    h.entry_cases hr hs path
  · simp only [exec_bind, he, hf]
    rfl
  · simp only [exec_bind, he, hf]
    rfl
  · simp only [exec_bind, exec_get, exec_pure, he, hf, Option.map_some, hnode.sight_eq, hcore,
      shown_core]
    rfl

/-- The entries of a directory are those that the plain layers give together. -/
theorem Pristine.exec_children (h : Pristine P I s layers w node)
    {place : Option (Offer Entry)} (hcore : node.core = place.map Offer.core) :
    ∃ r w', (children P node).exec w = (r, w') ∧
      r.map (·.map fun e => sight P e w'.1) = listAt s plain place := by
  have hpath : node.path = (shown s place).1 := by rw [h.path_eq, hcore, shown_core]
  have hread : (operations P w.2 w.1).covers (.only .read) = plain.any fun f => f.canRead s := by
    rw [hr.operations w.1 h.world w.2 h.layers]
    exact allowed_covers hs .read
  rw [children, listAt, contents, ← hread]
  simp only [exec_bind, exec_requireLive h.live, exec_require, ← hpath]
  cases (operations P w.2 w.1).covers (.only .read) with
  | false =>
      have said : "no filesystem in the union supports " ++ "listing" ++ ": "
        = "no filesystem in the union supports listing: " := by decide
      exact ⟨_, w, rfl, congrArg (fun text => Except.error (Failure.unsupported
        (text ++ node.path))) said⟩
  | true =>
      simp only [if_true, h.exec_requireDirectory, hcore, kindAt_core]
      cases (kindAt s place).isDirectory with
      | false => exact ⟨_, w, rfl, rfl⟩
      | true =>
          obtain ⟨listing, w', he, hcores, hfresh⟩ := h.exec_listed hr hs
          simp only [if_true, he]
          refine ⟨_, w', rfl, congrArg Except.ok ?_⟩
          have hsight : listing.map (fun c => sight P (.entry c.2) w'.1)
              = (cores (merged s plain node.path)).map fun e => shown s (some e.2) := by
            rw [← hcores, List.map_map]
            exact List.map_congr_left fun c hc => (hfresh c hc).sight_eq
          have hcore' : (cores (merged s plain node.path)).map (fun e => shown s (some e.2))
              = (merged s plain node.path).map fun e => shown s (some e.2) := by
            rw [cores, List.map_map]
            exact List.map_congr_left fun e _ => shown_core s (some e.2)
          show ((listing.map fun c => Node.entry c.2).map fun e => sight P e w'.1) =
            ((merged s plain node.path).map fun e => some e.2).map (shown s)
          rw [List.map_map, List.map_map]
          exact hsight.trans hcore'

theorem Pristine.listingAt_eq (h : Pristine P I s layers w .root) (path : String) :
    ((listingAt P path).exec w).1 = atPlace (found s plain path) (listAt s plain) := by
  rw [listingAt]
  obtain ⟨e, w', he, hf⟩ | ⟨w', he, hf⟩ | ⟨node, place, w', he, hf, hcore, hnode⟩ :=
    h.entry_cases hr hs path
  · simp only [exec_bind, he, hf]
    rfl
  · simp only [exec_bind, he, hf]
    rfl
  · obtain ⟨r, w'', hlist, hr'⟩ := hnode.exec_children hr hs hcore
    simp only [exec_bind, he, hf, hlist, atPlace, Except.bind, ← hr']
    cases r <;> rfl

end

/-! ## Reading -/

theorem exec_readAll (n : Nat) (data : Bytes) (w : Store × Overlay Filesystem Entry) :
    (do
      let (result, stream) ← (Overlay.provider (Store.provider n)).streams.readAll
        (.buffer (.reader data) none)
      (Overlay.provider (Store.provider n)).streams.close stream
      Action.ofIo result : Call Store Filesystem Entry Bytes).exec w = (.ok data, w) := by
  cases n <;> rfl

section
variable {n : Nat} (hr : Renders (Store.provider n) I s plain layers)
include hr

/-- A file can be opened for reading, and the stream has what is in it. -/
theorem Pristine.exec_openStream (h : Pristine (Store.provider n) I s layers w node) :
    ∃ w', (openStream (Store.provider n) node .reading).exec w =
      ((readAt s plain node.core).map fun data => .buffer (.reader data) none, w') := by
  have hkind : kind (Store.provider n) node w.1 = (shown s node.core).2 :=
    congrArg Prod.snd h.sight_eq
  rw [openStream, readAt, ← h.path_eq]
  simp only [exec_bind, exec_requireLive h.live, exec_get, exec_ofExcept,
    hr.operations w.1 h.world w.2 h.layers, hkind]
  cases OpenMode.reading.checkAgainst (allowed s plain) node.path with
  | error e => exact ⟨w, rfl⟩
  | ok required =>
      cases node with
      | root => exact ⟨w, rfl⟩
      | entry child =>
          simp only [Node.core, Node.offer?, Option.map_some, shown, Offer.core,
            Entry.kind_core, Entry.bytes_core, Option.getD_some]
          cases hfile : (child.offer.source.kind s).isFile with
          | false => exact ⟨w, rfl⟩
          | true =>
              obtain ⟨t', hopen, -⟩ :=
                (h.source _ rfl).opens (by simpa [Kind.isFile] using hfile) w.1 h.world
              simp only [if_true, exec_bind, exec_pure, Node.source?, exec_attempt, exec_below,
                hopen]
              exact ⟨_, rfl⟩

theorem Pristine.exec_readContents (h : Pristine (Store.provider n) I s layers w node) :
    (((Overlay.provider (Store.provider n)).readContents node).exec w).1
      = readAt s plain node.core := by
  have hopen : (Overlay.provider (Store.provider n)).openStream node .reading
      = openStream (Store.provider n) node .reading := rfl
  obtain ⟨w', he⟩ := h.exec_openStream hr
  rw [Provider.readContents, exec_bind, hopen, he]
  cases readAt s plain node.core with
  | error e => rfl
  | ok data => exact congrArg Prod.fst (exec_readAll n data w')

theorem Pristine.bytesAt_eq (hs : ∀ f ∈ plain, f.CleanTree s)
    (h : Pristine (Store.provider n) I s layers w .root) (path : String) :
    ((bytesAt (Store.provider n) path).exec w).1
      = atPlace (found s plain path) (readAt s plain) := by
  rw [bytesAt]
  obtain ⟨e, w', he, hf⟩ | ⟨w', he, hf⟩ | ⟨node, place, w', he, hf, hcore, hnode⟩ :=
    h.entry_cases hr hs path
  · simp only [exec_bind, he, hf]
    rfl
  · simp only [exec_bind, he, hf]
    rfl
  · have hread := hnode.exec_readContents hr
    rw [hcore, readAt_core] at hread
    simp only [exec_bind, he, hf, atPlace, Except.bind, ← hread]
    rcases ((Overlay.provider (Store.provider n)).readContents node).exec w' with ⟨_ | _, _⟩ <;> rfl

end

end Overlay

end Strata
