import CodeLayout.Proofs.Cache.Overflow
import CodeLayout.Proofs.Engine.Counters

/-!
# Installation

Installing code is a chain of changes: a place is taken, an earlier placement of
the method is taken out, its code is released, the compilation is counted and
written down.  The chain can break at each of them, and what was done before stays done.
In an engine that is reached it breaks at the first one or not at all; so an
installation that fails leaves the placements as they are, and neither it nor an
unloading touches another method.  It leaves the heaps as they are too, except where it
comes upon one that has no memory.
-/

namespace CodeLayout.Engine

variable {e start : Engine} {m : Method} {bytes : ByteArray} {requested : Partition} {b : Blob}
  {code : Method → Option ByteArray}

/-! ## Uses of an engine -/

/-- A call of the engine, or the order of the last pass is written to a file. -/
inductive Use where
  | call (call : Call)
  | dumpOrder (files : FileTree) (path : String)

def use (e : Engine) : Use → Engine
  | .call call => e.perform call
  | .dumpOrder files path => (e.dumpOrder files path).2.1

/-- The engine after it has been used some times. -/
def useAll (e : Engine) (uses : List Use) : Engine :=
  uses.foldl use e

/-- The number was given to a compilation whose code has been in place at some
time. -/
def Issued (e : Engine) (uses : List Use) (n : Nat) : Prop :=
  ∃ before rest, uses = before ++ rest ∧ ∃ p ∈ (e.useAll before).placements, p.compiled = n

/-- The active partitions have a heap, and the placements agree with the heaps. -/
structure Intact (e : Engine) : Prop where
  complete : e.cache.Complete
  consistent : ∃ code, e.Consistent code

theorem dumpOrder_same (e : Engine) (files : FileTree) (path : String) :
    SameStore e (e.dumpOrder files path).2.1 := by
  unfold dumpOrder
  split
  · exact SameStore.refl e
  · split
    · exact SameStore.refl e
    · exact ⟨rfl, rfl, rfl, rfl, rfl⟩

/-- The cache of a new engine was reserved on some host. -/
theorem Fresh.reserved (fresh : Fresh e) : ∃ s host, Cache.reserve s host = .ok e.cache := by
  induction fresh with
  | start _ _ reserved => exact ⟨_, _, reserved⟩
  | dumpTo _ _ inductionHypothesis => exact inductionHypothesis
  | withSeed _ _ inductionHypothesis => exact inductionHypothesis

theorem Fresh.intact (fresh : Fresh e) : e.Intact := by
  rcases fresh.reserved with ⟨s, host, reserved⟩
  exact ⟨(Cache.sound_of_reserve reserved).complete, _, fresh.consistent fun _ => none⟩

namespace Intact

theorem use (intact : e.Intact) (use : Use) : (e.use use).Intact ∧ Frame e (e.use use) := by
  rcases intact.consistent with ⟨code, consistent⟩
  have after : (∃ code, (e.use use).Consistent code) ∧ Frame e (e.use use) := by
    cases use with
    | call call =>
        rcases consistent.perform call with ⟨performed, frame⟩
        exact ⟨⟨_, performed⟩, frame⟩
    | dumpOrder files path =>
        have same := dumpOrder_same e files path
        exact ⟨⟨code, (same.consistent consistent).1⟩, (same.consistent consistent).2⟩
  rcases after with ⟨⟨later, held⟩, frame⟩
  refine ⟨⟨⟨held.held.stores.valid, ?_⟩, later, held⟩, frame⟩
  rw [frame.sites, frame.segmentation]
  exact intact.complete.active

theorem useAll (intact : e.Intact) (uses : List Use) :
    (e.useAll uses).Intact ∧ Frame e (e.useAll uses) := by
  induction uses generalizing e with
  | nil => exact ⟨intact, Frame.refl e⟩
  | cons first rest inductionHypothesis =>
      rcases intact.use first with ⟨once, frame⟩
      rcases inductionHypothesis once with ⟨whole, later⟩
      exact ⟨whole, frame.trans later⟩

end Intact

/-! ## Numbers of compilations -/

theorem compilations_le_useAll (e : Engine) (uses : List Use) :
    e.compilations ≤ (e.useAll uses).compilations := by
  induction uses generalizing e with
  | nil => exact Nat.le_refl _
  | cons first rest inductionHypothesis =>
      have once : e.compilations ≤ (e.use first).compilations := by
        cases first with
        | call call => exact (counts_perform e call).compilations
        | dumpOrder files path => exact (dumpOrder_same e files path).compilations.ge
      exact Nat.le_trans once (inductionHypothesis (e.use first))

/-- No number that was given is larger than the count. -/
theorem Intact.le_of_issued (intact : e.Intact) {uses : List Use} {n : Nat}
    (issued : e.Issued uses n) : n ≤ (e.useAll uses).compilations := by
  rcases issued with ⟨before, rest, rfl, p, member, rfl⟩
  rcases (intact.useAll before).1.consistent with ⟨code, consistent⟩
  have later := compilations_le_useAll (e.useAll before) rest
  rw [Engine.useAll, List.foldl_append]
  exact Nat.le_trans (consistent.numbered p member) later

/-! ## What installing and unloading come to -/

/-- New code takes the place of the code of its method, if there was any. -/
structure Replaces (e after : Engine) (m : Method) (bytes : ByteArray) (requested : Partition)
    (b : Blob) : Prop where
  /-- The new placement is the last one; the others stand as before. -/
  placements : after.placements = e.placements.erase m ++ [⟨m, b, none, after.compilations⟩]
  alone : ∀ p, p ∈ after.placements ∧ p.method = m ↔ p = ⟨m, b, none, after.compilations⟩
  others : ∀ n, n ≠ m → after.placements.find? n = e.placements.find? n
  compilations : after.compilations = e.compilations + 1
  /-- The earlier code of the method is released, and no other. -/
  cache : e.cache.Exchanged after.cache m bytes b
    ((e.placements.find? m).map Placement.blob).toList
  events : after.events =
    e.events ++ (e.cache.allocate (e.preferred m requested) m bytes).events
  rest : after = { e with
    cache := after.cache, placements := after.placements
    compilations := after.compilations, events := after.events }

/-- What an installation comes to.  Refused code leaves reports and nothing else. -/
structure Installation (e : Engine) (m : Method) (bytes : ByteArray) (requested : Partition)
    (result : Except Fault Blob × Engine) : Prop where
  refused : ∀ fault, result.1 = .error fault → ∃ events,
    e.cache.Refuses (e.preferred m requested) (Size.padded bytes.size) fault events ∧
      result.2 = e.report events
  granted : ∀ b, result.1 = .ok b → Replaces e result.2 m bytes requested b

/-- A method is taken out with its code. -/
structure Removes (e after : Engine) (m : Method) (placed : Placement) : Prop where
  found : e.placements.find? m = some placed
  placements : after.placements = e.placements.erase m
  alone : e.placements.Perm (placed :: after.placements)
  others : ∀ n, after.placements.find? n = if n = m then none else e.placements.find? n
  cache : e.cache.Lost after.cache placed.blob
  rest : after = { e with placements := after.placements, cache := after.cache }

/-- What an unloading comes to. -/
structure Unloading (e : Engine) (m : Method) (result : Except Fault Unit × Engine) : Prop where
  unknown : result.1 = .error (.unknownMethod m.display) ↔ e.placements.find? m = none
  refused : ∀ fault, result.1 = .error fault → fault = .unknownMethod m.display ∧ result.2 = e
  granted : result.1 = .ok () → ∃ placed, Removes e result.2 m placed

/-- Where the cache comes upon a heap without memory, the room that was taken there is lost,
and all else stays as it is. -/
inductive Stumbles (e : Engine) (m : Method) (bytes : ByteArray) (requested : Partition) :
    Except Fault Blob × Engine → Prop
  | unbacked {fault : Fault} {cache : Cache} {events : List Event}
      (spoils : e.cache.Spoils (e.preferred m requested) m bytes ⟨.error fault, cache, events⟩) :
      Stumbles e m bytes requested (.error fault, e.refused cache events)

theorem install_events (e : Engine) (m : Method) (bytes : ByteArray) (requested : Partition) :
    (e.install m bytes requested).2.events =
      e.events ++ (e.cache.allocate (e.preferred m requested) m bytes).events := by
  have made := installs e m bytes requested
  generalize e.install m bytes requested = result at made ⊢
  cases made with
  | refused failed => rw [failed]; rfl
  | added allocated _ => rw [allocated]; rfl
  | replaced allocated _ _ => rw [allocated]; rfl
  | stuck allocated _ _ => rw [allocated]; rfl

/-- An installation that is granted is counted. -/
theorem compilations_of_install (granted : (e.install m bytes requested).1 = .ok b) :
    (e.install m bytes requested).2.compilations = e.compilations + 1 := by
  have made := installs e m bytes requested
  generalize e.install m bytes requested = result at made granted ⊢
  cases made with
  | refused _ => contradiction
  | added _ _ => rfl
  | replaced _ _ _ => rfl
  | stuck _ _ _ => contradiction

/-- Where the cache exchanges the code of a method, the engine does so. -/
theorem replaces_of_exchanged {after : Cache} {events : List Event}
    (exchanged : e.cache.Exchanged after m bytes b
      ((e.placements.find? m).map Placement.blob).toList)
    (reported : events = (e.cache.allocate (e.preferred m requested) m bytes).events) :
    Replaces e (e.installed m b after events) m bytes requested b where
  placements := rfl
  alone := by
    intro p
    constructor
    · rintro ⟨member, isMethod⟩
      rcases List.mem_append.mp member with kept | new
      · have differs : p.method ≠ m := by simpa using (List.mem_filter.mp kept).2
        exact absurd isMethod differs
      · exact List.mem_singleton.mp new
    · rintro rfl
      exact ⟨List.mem_append_right _ (List.mem_singleton.mpr rfl), rfl⟩
  others := by
    intro n differs
    have kept := Placements.find?_erase e.placements m n
    rw [if_neg differs] at kept
    rw [← kept, Engine.installed, Placements.find?, List.find?_append]
    simp [Placements.find?, differs.symm]
  compilations := rfl
  cache := exchanged
  events := by rw [← reported]; rfl
  rest := rfl

namespace Intact

/-- Where the cache places code or finds no room for it, an installation is clean. -/
theorem installation_of_overflows (intact : e.Intact) {m : Method} {requested : Partition}
    (overflows : e.cache.Overflows (e.preferred m requested) m bytes
      (e.cache.allocate (e.preferred m requested) m bytes)) :
    Installation e m bytes requested (e.install m bytes requested) := by
  rcases intact.consistent with ⟨code, consistent⟩
  have reported := install_events e m bytes requested
  rcases consistent.install_exchanges m bytes requested with
    ⟨fault, cache, events, failed, equal, _⟩ | ⟨b, cache, events, equal, exchanged⟩
  · rw [failed] at overflows
    rcases overflows.refused fault rfl with ⟨refuses, rfl⟩
    rw [equal]
    constructor
    · rintro other ⟨⟩
      exact ⟨events, refuses, rfl⟩
    · exact nofun
  · rw [equal] at reported ⊢
    constructor
    · exact nofun
    · rintro blob ⟨⟩
      exact replaces_of_exchanged exchanged (List.append_cancel_left reported)

/-- Where it is clean, the cache does so. -/
theorem overflows_of_installation (intact : e.Intact) (short : bytes.size ≤ Size.largest)
    {m : Method} {requested : Partition}
    (installation : Installation e m bytes requested (e.install m bytes requested)) :
    e.cache.Overflows (e.preferred m requested) m bytes
      (e.cache.allocate (e.preferred m requested) m bytes) := by
  rcases intact.complete.overflows_or_spoils (e.preferred m requested) m bytes short with
    overflows | spoils
  · exact overflows
  · rcases spoils.exists_eq with ⟨fault, cache, events, failed⟩
    rw [install_of_fault failed] at installation
    rcases installation.refused fault rfl with ⟨reported, refuses, untouched⟩
    cases congrArg Engine.cache untouched
    cases List.append_cancel_left (congrArg Engine.events untouched)
    rw [failed]
    exact refuses.overflows

theorem installation_or_stumbles (intact : e.Intact) (short : bytes.size ≤ Size.largest)
    (m : Method) (requested : Partition) :
    Installation e m bytes requested (e.install m bytes requested) ∨
      Stumbles e m bytes requested (e.install m bytes requested) := by
  rcases intact.complete.overflows_or_spoils (e.preferred m requested) m bytes short with
    overflows | spoils
  · exact Or.inl (intact.installation_of_overflows overflows)
  · rcases spoils.exists_eq with ⟨fault, cache, events, failed⟩
    rw [install_of_fault failed]
    rw [failed] at spoils
    exact Or.inr (.unbacked spoils)

theorem unloading (intact : e.Intact) (m : Method) : Unloading e m (e.unload m) := by
  rcases intact.consistent with ⟨code, consistent⟩
  rcases consistent.unload_loses m with ⟨found, equal⟩ | ⟨placed, cache, found, equal, lost⟩
  · rw [equal]
    constructor
    · exact ⟨fun _ => found, fun _ => rfl⟩
    · intro fault isFault
      cases isFault
      exact ⟨rfl, rfl⟩
    · intro granted
      contradiction
  · rw [equal]
    constructor
    · rw [found]
      exact ⟨fun _ => by contradiction, fun _ => by contradiction⟩
    · intro fault isFault
      contradiction
    · intro _
      exact ⟨placed, found, rfl, Placements.perm_erase consistent.held.methods found,
        Placements.find?_erase e.placements m, lost, rfl⟩

end Intact

/-- However the engine is used, it goes on to install code in place of the earlier code of its
method, or to refuse it without a trace. -/
def Clean (start : Engine) : Prop :=
  ∀ (uses : List Use) (m : Method) (bytes : ByteArray) (_ : bytes.size ≤ Size.largest)
    (requested : Partition),
  let e := start.useAll uses
  Installation e m bytes requested (e.install m bytes requested)

/-- Some method is not listed with a partition of its own. -/
theorem exists_lookup_eq_none (targets : List (Method × Partition)) :
    ∃ m : Method, targets.lookup m = none := by
  let named : Nat → Method := fun n => ⟨String.ofList (List.replicate n 'a'), "", ""⟩
  have injective : Function.Injective named := by
    intro first second same
    have spelled := String.ofList_injective (congrArg Method.holder same)
    simpa using congrArg List.length spelled
  have : Infinite Method := Infinite.of_injective named injective
  rcases Infinite.exists_notMem_finset (targets.map Prod.fst).toFinset with ⟨m, new⟩
  refine ⟨m, List.lookup_eq_none_iff.mpr ?_⟩
  intro pair member
  have differs : m ≠ pair.1 := by
    rintro rfl
    exact new (List.mem_toFinset.mpr (List.mem_map_of_mem member))
  simpa using differs

/-- One byte for a partition whose heap has no memory is refused, but not cleanly. -/
theorem Fresh.ready_of_clean (fresh : Fresh start) (clean : start.Clean) {p : Partition}
    (active : start.cache.segmentation.isActive p = true) : start.cache.Ready p := by
  rcases fresh.reserved with ⟨s, host, reserved⟩
  have sound := Cache.sound_of_reserve reserved
  rcases exists_lookup_eq_none start.seedTargets with ⟨m, unlisted⟩
  have preferred : start.preferred m p = p := by rw [Engine.preferred, unlisted]; rfl
  have overflows : start.cache.Overflows (start.preferred m p) m Heap.oneByte
      (start.cache.allocate (start.preferred m p) m Heap.oneByte) :=
    fresh.intact.overflows_of_installation (by decide) (clean [] m Heap.oneByte (by decide) p)
  rw [preferred] at overflows
  rw [sound.ready_iff]
  refine ⟨active, Decidable.byContradiction fun beyond => ?_⟩
  rw [(Cache.reserve_eq_ok reserved).1] at active beyond
  exact Cache.not_overflows_of_wraps reserved active beyond m overflows

/-- However an engine has been used: new code is installed in place of the earlier code
of its method or refused without a trace, unless the cache comes upon a heap without memory.
Its number is larger than all numbers before, and a method is unloaded exactly if it has code.
All installations are clean exactly if the active heaps are backed by memory. -/
theorem touches_one_method (fresh : Fresh start) :
    (∀ uses : List Use,
      let e := start.useAll uses
      (∀ (m : Method) (bytes : ByteArray) (_ : bytes.size ≤ Size.largest)
          (requested : Partition),
        let result := e.install m bytes requested
        (Installation e m bytes requested result ∨ Stumbles e m bytes requested result) ∧
        ((∀ q ∈ e.cache.segmentation.allocationOrder (e.preferred m requested),
            start.cache.Ready q) → Installation e m bytes requested result) ∧
        ∀ b, result.1 = .ok b → ∀ n, start.Issued uses n → n < result.2.compilations) ∧
      ∀ m : Method, Unloading e m (e.unload m)) ∧
    (start.Clean ↔
      ∀ p, start.cache.segmentation.isActive p = true → start.cache.Ready p) := by
  have whole {uses : List Use} {m : Method} {bytes : ByteArray} {requested : Partition}
      (short : bytes.size ≤ Size.largest)
      (ready : ∀ q ∈ (start.useAll uses).cache.segmentation.allocationOrder
        ((start.useAll uses).preferred m requested), start.cache.Ready q) :
      Installation (start.useAll uses) m bytes requested
        ((start.useAll uses).install m bytes requested) := by
    rcases fresh.intact.useAll uses with ⟨intact, frame⟩
    exact intact.installation_of_overflows (intact.complete.overflows
      (fun q member => (ready q member).of_sites frame.sites) m bytes short)
  constructor
  · intro uses
    rcases fresh.intact.useAll uses with ⟨intact, frame⟩
    refine ⟨?_, intact.unloading⟩
    intro m bytes short requested
    refine ⟨intact.installation_or_stumbles short m requested, whole short, ?_⟩
    intro b granted n issued
    rw [compilations_of_install granted]
    exact Nat.lt_succ_of_le (fresh.intact.le_of_issued issued)
  · constructor
    · intro clean p active
      exact fresh.ready_of_clean clean active
    · intro ready uses m bytes short requested
      have frame := (fresh.intact.useAll uses).2
      refine whole short fun q member => ready q ?_
      rw [← frame.segmentation]
      exact Cache.isActive_of_mem_allocationOrder member

/-- Two methods are installed, and an order is asked for that there is not yet. -/
def twoInstallations : List Use :=
  [.call (.install firstMethod ⟨#[1, 2, 3]⟩ .hot short_first),
    .call (.install secondMethod ⟨#[4, 5]⟩ .nonProfiled short_second),
    .dumpOrder FileTree.empty "order.txt"]

/-- The first method is compiled again, and its placement goes behind the other one. -/
theorem touches_one_method_small :
    Fresh (Engine.start false smallCache) ∧
      let e := (Engine.start false smallCache).useAll twoInstallations
      let result := e.install firstMethod ⟨#[6]⟩ .hot
      result.2.placements.map (fun p => (p.method, p.compiled)) =
        [(secondMethod, 2), (firstMethod, 3)] ∧
      Installation e firstMethod ⟨#[6]⟩ .hot result ∧
      Unloading e firstMethod (e.unload firstMethod) := by
  have fresh := fresh_small false
  have sound : smallCache.Sound smallHost := Cache.sound_of_reserve (s := smallSegmentation) rfl
  have ready (p : Partition) (active : smallCache.segmentation.isActive p = true) :
      smallCache.Ready p := by
    rw [sound.ready_iff]
    exact ⟨active, by cases p <;> decide⟩
  rcases touches_one_method fresh with ⟨each, clean⟩
  exact ⟨fresh, rfl, clean.mpr ready twoInstallations _ _ (by decide) _,
    (each twoInstallations).2 firstMethod⟩

/-- A small machine that asks for as much memory as can be asked for. -/
def vastOptions : Options :=
  { smallOptions with nonMethodSize := 0xFFFFFFFFFFFFFFFF }

def vastSegmentation : Segmentation where
  active := Segmentation.activeOf vastOptions
  capacity p :=
    if p = .nonProfiled then 917504 else Segmentation.requestedCapacity vastOptions p

/-- The cache for it.  Its last partition has no memory. -/
def vastCache : Cache where
  segmentation := vastSegmentation
  heaps :=
    [emptyHeap .nonProfiled 0x1000000 917504, emptyHeap .profiled 0x2000000 1048576,
      emptyHeap .hot 0x3000000 65536, emptyHeap .tmp 0x4000000 65536,
      Heap.hollowHeap .nonMethod 0x5000000]

theorem fresh_vast (recording : Bool) : Fresh (Engine.start recording vastCache) := by
  have segmented : Segmentation.ofOptions vastOptions = .ok vastSegmentation := rfl
  have reserved : Cache.reserve vastSegmentation smallHost = .ok vastCache := rfl
  exact Fresh.start recording segmented reserved

/-- Three bytes for it are refused for another reason than want of room, and the room is lost. -/
theorem not_touches_one_method :
    Fresh (Engine.start false vastCache) ∧
      let result := (Engine.start false vastCache).install firstMethod ⟨#[1, 2, 3]⟩ .nonMethod
      result.1 = .error (.internal "code write out of bounds: offset=0, len=3, size=0") ∧
        result.2.cache.heap? .nonMethod = some (Heap.spoiltHeap .nonMethod 0x5000000) ∧
        ¬ Installation (Engine.start false vastCache) firstMethod ⟨#[1, 2, 3]⟩ .nonMethod result ∧
        ¬ (Engine.start false vastCache).Clean := by
  have failed := Cache.allocate_of_hollow (c := vastCache) (p := .nonMethod) (by decide) rfl
    (show (⟨#[1, 2, 3]⟩ : ByteArray).size = 3 from rfl) firstMethod
  have refused : (Engine.start false vastCache).install firstMethod ⟨#[1, 2, 3]⟩ .nonMethod = _ :=
    install_of_fault failed
  have notInstalled : ¬ Installation (Engine.start false vastCache) firstMethod ⟨#[1, 2, 3]⟩
      .nonMethod ((Engine.start false vastCache).install firstMethod ⟨#[1, 2, 3]⟩ .nonMethod) := by
    intro installation
    rw [refused] at installation
    rcases installation.refused _ rfl with ⟨events, refuses, _⟩
    cases refuses
  refine ⟨fresh_vast false, ?_, ?_, notInstalled, ?_⟩
  · rw [refused]
  · rw [refused]
    rfl
  · intro clean
    exact notInstalled (clean [] firstMethod ⟨#[1, 2, 3]⟩ (by decide) .nonMethod)

end CodeLayout.Engine
