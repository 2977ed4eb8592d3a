import CodeLayout.Engine.Pass
import CodeLayout.Proofs.Cache.Room
import CodeLayout.Proofs.Transit.Relocation

/-!
# Histories of an engine

An engine starts on an empty cache and is used through four operations.  After
any number of them, whether they succeed or fail, its placements and its cache
agree: every placement has a live blob of its own, and there are no others.
-/

namespace CodeLayout.Engine

/-- An operation of the engine with all that it is given.  No code is longer than the
largest size, and a pass finds the files as they are at its time. -/
inductive Call where
  | install (m : Method) (code : ByteArray) (requested : Partition)
      (short : code.size ≤ Size.largest)
  | unload (m : Method)
  | runPass (files : FileTree) (ranking : List Method) (elapsed : Nat)
  | runWith (files : FileTree) (ranking : List Method) (elapsed : Nat)

/-- The call runs a pass. -/
def Call.isPass : Call → Bool
  | .install .. | .unload _ => false
  | .runPass .. | .runWith .. => true

/-- The engine after a call, whether it succeeds or fails. -/
def perform (e : Engine) : Call → Engine
  | .install m code requested _ => (e.install m code requested).2
  | .unload m => (e.unload m).2
  | .runPass files ranking elapsed => (e.runPass files ranking elapsed).engine
  | .runWith files ranking elapsed => (e.runWith files ranking elapsed).engine

/-- The engine after some calls. -/
def performAll (e : Engine) : List Call → Engine
  | [] => e
  | call :: rest => (e.perform call).performAll rest

theorem performAll_concat (e : Engine) (calls : List Call) (call : Call) :
    e.performAll (calls ++ [call]) = (e.performAll calls).perform call := by
  induction calls generalizing e with
  | nil => rfl
  | cons first rest inductionHypothesis => exact inductionHypothesis (e.perform first)

/-- An engine that has not been used yet. -/
inductive Fresh : Engine → Prop
  | start {o : Options} {s : Segmentation} {host : Host} {cache : Cache}
      (recording : Bool) (segmented : Segmentation.ofOptions o = .ok s)
      (reserved : Cache.reserve s host = .ok cache) : Fresh (Engine.start recording cache)
  | dumpTo {e : Engine} (fresh : Fresh e) (path : Option String) :
      Fresh { e with dumpPath := path }
  | withSeed {e : Engine} (fresh : Fresh e) (order : Order) : Fresh (e.withSeed order)

/-- The engine is reached from one that has not been used by some calls. -/
def Reached (e : Engine) : Prop :=
  ∃ start calls, Fresh start ∧ start.performAll calls = e

/-- The code installed last for each method, with regard to one more call. -/
def codeAfter (e : Engine) (code : Method → Option ByteArray) : Call → Method → Option ByteArray
  | .install m bytes requested _ =>
    match (e.install m bytes requested).1 with
    | .ok _ => Function.update code m (some bytes)
    | .error _ => code
  | _ => code

/-- The code installed last for each method by some calls, if they installed it
at all. -/
def lastCode (e : Engine) (code : Method → Option ByteArray) :
    List Call → Method → Option ByteArray
  | [] => code
  | call :: rest => (e.perform call).lastCode (e.codeAfter code call) rest

/-- Placements and cache agree, and the compilations are counted. -/
structure Consistent (e : Engine) (code : Method → Option ByteArray) : Prop where
  held : e.placements.Held e.cache code
  numbered : ∀ p ∈ e.placements, p.compiled ≤ e.compilations

/-- What no call changes: the mode, the partitions and where the heaps are. -/
structure Frame (e after : Engine) : Prop where
  recording : after.recording = e.recording
  segmentation : after.cache.segmentation = e.cache.segmentation
  sites : after.cache.sites = e.cache.sites

theorem Frame.refl (e : Engine) : Frame e e :=
  ⟨rfl, rfl, rfl⟩

theorem Frame.trans {e middle after : Engine} (first : Frame e middle)
    (second : Frame middle after) : Frame e after :=
  ⟨second.recording.trans first.recording, second.segmentation.trans first.segmentation,
    second.sites.trans first.sites⟩

theorem Fresh.consistent {e : Engine} (fresh : Fresh e) (code : Method → Option ByteArray) :
    e.Consistent code := by
  induction fresh with
  | start recording segmented reserved =>
      rcases Cache.valid_of_reserve reserved with ⟨valid, _, noBlobs⟩
      constructor
      · exact Placements.Held.empty valid noBlobs code
      · intro p member
        contradiction
  | dumpTo _ path inductionHypothesis =>
      exact ⟨inductionHypothesis.held, inductionHypothesis.numbered⟩
  | withSeed _ order inductionHypothesis =>
      exact ⟨inductionHypothesis.held, inductionHypothesis.numbered⟩

/-! ## Installing and unloading -/

variable {e : Engine} {code : Method → Option ByteArray}

/-- The state after an installation. -/
def installed (e : Engine) (m : Method) (b : Blob) (cache : Cache) (events : List Event) :
    Engine :=
  { e.report events with
    cache
    placements := e.placements.erase m ++ [⟨m, b, none, e.compilations + 1⟩]
    compilations := e.compilations + 1 }

/-- The state after an installation for which no place was found. -/
def refused (e : Engine) (cache : Cache) (events : List Event) : Engine :=
  { e.report events with cache }

/-- What comes of an installation.  The code finds no place, it is added, or it takes the
place of earlier code, which may not let itself be released. -/
inductive Installs (e : Engine) (m : Method) (code : ByteArray) (requested : Partition) :
    Except Fault Blob × Engine → Prop
  | refused {fault : Fault} {cache : Cache} {events : List Event}
      (failed : e.cache.allocate (e.preferred m requested) m code = ⟨.error fault, cache, events⟩) :
      Installs e m code requested (.error fault, e.refused cache events)
  | added {b : Blob} {gained : Cache} {events : List Event}
      (allocated : e.cache.allocate (e.preferred m requested) m code = ⟨.ok b, gained, events⟩)
      (new : e.placements.find? m = none) :
      Installs e m code requested (.ok b, e.installed m b gained events)
  | replaced {b freed : Blob} {gained cache : Cache} {events : List Event} {earlier : Placement}
      (allocated : e.cache.allocate (e.preferred m requested) m code = ⟨.ok b, gained, events⟩)
      (found : e.placements.find? m = some earlier)
      (released : gained.release earlier.blob = .ok (freed, cache)) :
      Installs e m code requested (.ok b, e.installed m b cache events)
  | stuck {b : Blob} {gained : Cache} {events : List Event} {earlier : Placement} {fault : Fault}
      (allocated : e.cache.allocate (e.preferred m requested) m code = ⟨.ok b, gained, events⟩)
      (found : e.placements.find? m = some earlier)
      (failed : gained.release earlier.blob = .error fault) :
      Installs e m code requested (.error fault,
        { e.report events with cache := gained, placements := e.placements.erase m })

theorem installs (e : Engine) (m : Method) (code : ByteArray) (requested : Partition) :
    Installs e m code requested (e.install m code requested) := by
  unfold install
  cases allocated : e.cache.allocate (e.preferred m requested) m code with
  | mk answer gained events =>
      cases answer with
      | error fault => exact .refused allocated
      | ok b =>
          dsimp only
          cases found : (e.report events).placements.find? m with
          | none => exact .added allocated found
          | some earlier =>
              dsimp only
              cases released : gained.release earlier.blob with
              | error fault => exact .stuck allocated found released
              | ok freed => exact .replaced allocated found released

/-- Without a place for the code nothing is installed. -/
theorem install_of_fault {m : Method} {bytes : ByteArray} {requested : Partition} {fault : Fault}
    {cache : Cache} {events : List Event}
    (failed : e.cache.allocate (e.preferred m requested) m bytes = ⟨.error fault, cache, events⟩) :
    e.install m bytes requested = (.error fault, e.refused cache events) := by
  rw [install, failed]
  rfl

namespace Consistent

/-- An installation either fails because nothing can be allocated, or the cache exchanges
the earlier code of the method for the new one. -/
theorem install_exchanges (consistent : e.Consistent code) (m : Method) (bytes : ByteArray)
    (requested : Partition) :
    (∃ fault cache events,
      e.cache.allocate (e.preferred m requested) m bytes = ⟨.error fault, cache, events⟩ ∧
      e.install m bytes requested = (.error fault, e.refused cache events) ∧
      e.cache.Kept cache) ∨
    ∃ b cache events,
      e.install m bytes requested = (.ok b, e.installed m b cache events) ∧
      e.cache.Exchanged cache m bytes b ((e.placements.find? m).map Placement.blob).toList := by
  have held := consistent.held
  have valid := held.stores.valid
  have searched := valid.searched_allocate (e.preferred m requested) m bytes
  have made := installs e m bytes requested
  generalize e.install m bytes requested = result at made ⊢
  cases made with
  | refused failed =>
      rw [failed] at searched
      exact Or.inl ⟨_, _, _, failed, rfl, (searched.kept valid rfl).1⟩
  | added allocated new =>
      rw [allocated] at searched
      rw [new]
      exact Or.inr ⟨_, _, _, rfl, (searched.gained valid rfl).1.exchanged⟩
  | replaced allocated found released =>
      rw [allocated] at searched
      have gains := (searched.gained valid rfl).1
      have live := held.live (Placements.mem_of_find? found).1
      rcases gains.release_of_mem live with ⟨after, isReleased, lost⟩
      cases isReleased.symm.trans released
      rw [found]
      exact Or.inr ⟨_, _, _, rfl, gains.exchanged_of_lost live lost⟩
  | stuck allocated found failed =>
      rw [allocated] at searched
      -- The earlier code is live, so it can be released.
      have live := held.live (Placements.mem_of_find? found).1
      rcases (searched.gained valid rfl).1.release_of_mem live with ⟨after, isReleased, _⟩
      cases isReleased.symm.trans failed

/-- An installation either fails and leaves the code in place, or puts the new code in the
place of the earlier one. -/
theorem install_cases (consistent : e.Consistent code) (m : Method) (bytes : ByteArray)
    (requested : Partition) :
    (∃ fault cache events, e.install m bytes requested = (.error fault, e.refused cache events) ∧
      e.cache.Kept cache) ∨
    ∃ b cache events,
      e.install m bytes requested = (.ok b, e.installed m b cache events) ∧
      Placements.Held (e.installed m b cache events).placements cache
        (Function.update code m (some bytes)) ∧
      cache.segmentation = e.cache.segmentation ∧ cache.sites = e.cache.sites := by
  have held := consistent.held
  have newest : ∀ p ∈ e.placements, p.compiled < e.compilations + 1 := fun p member =>
    Nat.lt_succ_of_le (consistent.numbered p member)
  rcases consistent.install_exchanges m bytes requested with
    ⟨fault, cache, events, _, equal, kept⟩ | ⟨b, cache, events, equal, exchanged⟩
  · exact Or.inl ⟨fault, cache, events, equal, kept⟩
  · have split := Placements.perm_find?_erase held.methods m
    have stores := held.stores.of_perm (split.map _)
    rw [List.map_append] at stores
    have gone : ((e.placements.find? m).map Placement.blob).toList =
        ((e.placements.find? m).toList.map fun p => (p.blob, code p.method)).map Prod.fst := by
      cases e.placements.find? m <;> rfl
    rw [gone] at exchanged
    exact Or.inr ⟨b, cache, events, equal,
      held.install exchanged.method (stores.exchanged exchanged) newest,
      exchanged.segmentation, exchanged.sites⟩

/-- Code that is installed is unloaded without fail, which takes it out of the cache. -/
theorem unload_loses (consistent : e.Consistent code) (m : Method) :
    e.placements.find? m = none ∧ e.unload m = (.error (.unknownMethod m.display), e) ∨
    ∃ placed cache, e.placements.find? m = some placed ∧
      e.unload m = (.ok (), { e with placements := e.placements.erase m, cache }) ∧
      e.cache.Lost cache placed.blob := by
  have held := consistent.held
  unfold unload
  cases found : e.placements.find? m with
  | none => exact Or.inl ⟨rfl, rfl⟩
  | some placed =>
      have live := held.live (Placements.mem_of_find? found).1
      rcases held.stores.valid.release_of_mem live with ⟨after, released, lost⟩
      dsimp only
      rw [released]
      exact Or.inr ⟨placed, after, rfl, rfl, lost⟩

/-- Code that is installed is unloaded without fail. -/
theorem unload_cases (consistent : e.Consistent code) (m : Method) :
    e.unload m = (.error (.unknownMethod m.display), e) ∨
    ∃ cache,
      e.unload m = (.ok (), { e with placements := e.placements.erase m, cache }) ∧
      (e.placements.erase m).Held cache code ∧
      cache.segmentation = e.cache.segmentation ∧ cache.sites = e.cache.sites := by
  rcases consistent.unload_loses m with ⟨_, equal⟩ | ⟨placed, cache, found, equal, lost⟩
  · exact Or.inl equal
  · exact Or.inr ⟨cache, equal, consistent.held.erase found lost, lost.segmentation, lost.sites⟩

/-- Whether an installation succeeds or fails, the placements agree with the cache after it. -/
theorem install (consistent : e.Consistent code) (m : Method) (bytes : ByteArray)
    (requested : Partition) :
    (e.install m bytes requested).2.Consistent
        (match (e.install m bytes requested).1 with
          | .ok _ => Function.update code m (some bytes)
          | .error _ => code) ∧
      Frame e (e.install m bytes requested).2 := by
  rcases consistent.install_cases m bytes requested with
    ⟨fault, cache, events, equal, kept⟩ | ⟨b, cache, events, equal, held, segmentation, sites⟩
  · rw [equal]
    exact ⟨⟨consistent.held.kept kept, consistent.numbered⟩, ⟨rfl, kept.segmentation, kept.sites⟩⟩
  · rw [equal]
    constructor
    · constructor
      · exact held
      · intro p member
        rcases List.mem_append.mp member with old | new
        · exact Nat.le_succ_of_le (consistent.numbered p (List.mem_of_mem_filter old))
        · rw [List.mem_singleton.mp new]
          exact Nat.le_refl _
    · exact ⟨rfl, segmentation, sites⟩

theorem unload (consistent : e.Consistent code) (m : Method) :
    (e.perform (.unload m)).Consistent code ∧ Frame e (e.perform (.unload m)) := by
  rw [perform]
  rcases consistent.unload_cases m with equal | ⟨cache, equal, held, segmentation, sites⟩
  · rw [equal]
    exact ⟨consistent, Frame.refl e⟩
  · rw [equal]
    constructor
    · constructor
      · exact held
      · intro p member
        exact consistent.numbered p (List.mem_of_mem_filter member)
    · exact ⟨rfl, segmentation, sites⟩

end Consistent

/-! ## A small machine -/

/-- Options that call for small partitions, two of them managed. -/
def smallOptions : Options :=
  { Options.default with
    enabled := true
    hotHeapSize := some 65536
    nonProfiledSize := 1048576
    profiledSize := 1048576
    nonMethodSize := 65536 }

def smallSegmentation : Segmentation where
  active := Segmentation.activeOf smallOptions
  capacity p :=
    if p = .nonProfiled then 917504 else Segmentation.requestedCapacity smallOptions p

/-- A heap in which nothing is allocated yet. -/
def emptyHeap (p : Partition) (base capacity : Nat) : Heap where
  partition := p
  base
  capacity
  memory := { size := capacity, isMapped := true, writes := [] }
  free := [⟨0, capacity⟩]
  blobs := []
  used := 0

/-- A host on which the partitions lie far apart. -/
def smallHost : Host := .ofBase fun p => (p.id + 1) * 0x1000000

def smallCache : Cache where
  segmentation := smallSegmentation
  heaps :=
    [emptyHeap .nonProfiled 0x1000000 917504, emptyHeap .profiled 0x2000000 1048576,
      emptyHeap .hot 0x3000000 65536, emptyHeap .tmp 0x4000000 65536,
      emptyHeap .nonMethod 0x5000000 65536]

theorem fresh_small (recording : Bool) : Fresh (Engine.start recording smallCache) := by
  have segmented : Segmentation.ofOptions smallOptions = .ok smallSegmentation := rfl
  have reserved : Cache.reserve smallSegmentation smallHost = .ok smallCache := rfl
  exact Fresh.start recording segmented reserved

theorem separate_small : smallCache.Separate :=
  Cache.separate_of_ascending (by decide)

def firstMethod : Method := ⟨"Main", "first", "()V"⟩

def secondMethod : Method := ⟨"Main", "second", "()V"⟩

/-- Their code is short. -/
theorem short_first : (⟨#[1, 2, 3]⟩ : ByteArray).size ≤ Size.largest := by decide

theorem short_second : (⟨#[4, 5]⟩ : ByteArray).size ≤ Size.largest := by decide

/-- A small machine with one method in the hot partition and one outside. -/
def smallEngine : Engine :=
  (Engine.start false smallCache).performAll
    [.install firstMethod ⟨#[1, 2, 3]⟩ .hot short_first,
      .install secondMethod ⟨#[4, 5]⟩ .nonProfiled short_second]

theorem reached_small : Reached smallEngine :=
  ⟨_, _, fresh_small false, rfl⟩

/-- A pass that exchanges the two methods of a small machine. -/
def exchange : Call :=
  .runPass FileTree.empty [secondMethod] 0

end CodeLayout.Engine
