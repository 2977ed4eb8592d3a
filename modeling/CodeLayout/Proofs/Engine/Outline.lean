import CodeLayout.Proofs.Engine.Readiness
import CodeLayout.Proofs.Transit.Outline

/-!
# Engines in outline

Where installations and the moves of a pass put code follows from the free
ranges and the lengths alone.  So the way of an engine can be told in outline,
whatever the bytes are that are installed.
-/

namespace CodeLayout.Engine

/-- What is placed, the number of installations so far, and what is free. -/
structure Stock where
  placements : Placements
  count : Nat
  outline : Outline
deriving DecidableEq

/-- The scene in which the moves for a ranking begin. -/
def Stock.opening (s : Segmentation) (stock : Stock) (ranking : List Method) : Scene :=
  let plan := Plan.ofRanking s stock.placements ranking
  { placements := applyRanks plan stock.placements
    outline := stock.outline
    pending := plan.moves
    parked := []
    compacted := []
    moved := []
    failures := [] }

/-- The stock that the moves of a pass leave. -/
def Stock.after (stock : Stock) (last : Scene) : Stock :=
  { stock with placements := last.placements, outline := last.outline }

variable {e : Engine} {s : Segmentation} {stock : Stock} {o next : Outline} {m : Method}
  {p : Partition} {code : ByteArray} {b : Blob} {placed : Placement} {ranking : List Method}
  {last : Scene}

/-- A moving engine without a seed has what its stock says. -/
structure Stocked (e : Engine) (s : Segmentation) (stock : Stock) : Prop where
  recording : e.recording = false
  unseeded : e.seedTargets = []
  placements : e.placements = stock.placements
  count : e.compilations = stock.count
  segmentation : e.cache.segmentation = s
  consistent : ∃ code, e.Consistent code
  cache : e.cache.Outlined stock.outline

namespace Stocked

/-- Nothing is installed in a new engine. -/
theorem of_fresh {cache : Cache} (fresh : Fresh (Engine.start false cache))
    (outlined : cache.Outlined o) :
    Stocked (Engine.start false cache) cache.segmentation ⟨[], 0, o⟩ :=
  ⟨rfl, rfl, rfl, rfl, rfl, ⟨_, fresh.consistent fun _ => none⟩, outlined⟩

/-- Code of a new method is installed at the place that the outline has for it. -/
theorem install (stocked : Stocked e s stock) (new : stock.placements.find? m = none)
    (active : s.isActive p = true) {length : Nat} (size : code.size = length)
    (short : code.size ≤ Size.largest)
    (room : stock.outline.place? p m length = some (b, next)) :
    Stocked (e.perform (.install m code p short)) s
      ⟨stock.placements ++ [⟨m, b, none, stock.count + 1⟩], stock.count + 1, next⟩ := by
  subst size
  rcases stocked.consistent with ⟨codes, consistent⟩
  rcases consistent.perform (.install m code p short) with ⟨after, frame⟩
  have activeHere : e.cache.segmentation.isActive p = true := stocked.segmentation ▸ active
  rcases stocked.cache.allocateExact activeHere (Size.short_of_le_largest short) room with
    ⟨cache, allocated, outlined⟩
  have performed : e.perform (.install m code p short) =
      { e with
        cache
        placements := stock.placements ++ [⟨m, b, none, stock.count + 1⟩]
        compilations := stock.count + 1 } := by
    have inOrder : e.cache.allocate (e.preferred m p) m code = ⟨.ok b, cache, []⟩ := by
      simp only [preferred, stocked.unseeded, List.lookup_nil, Option.getD_none, Cache.allocate,
        Segmentation.allocationOrder, if_pos activeHere, Cache.allocateInOrder, List.isEmpty_cons,
        Bool.false_eq_true, if_false, Cache.tryEach, allocated]
    simp only [perform, Engine.install, inOrder, report, List.append_nil, stocked.placements, new,
      stocked.count, Placements.erase_eq_self new]
  rw [performed] at after frame ⊢
  exact ⟨stocked.recording, stocked.unseeded, rfl, rfl,
    frame.segmentation.trans stocked.segmentation, ⟨_, after⟩, outlined⟩

/-- A method that is unloaded leaves its range to the outline. -/
theorem unload (stocked : Stocked e s stock) (found : stock.placements.find? m = some placed) :
    Stocked (e.perform (.unload m)) s
      ⟨stock.placements.erase m, stock.count, stock.outline.vacate placed.blob⟩ := by
  rcases stocked.consistent with ⟨codes, consistent⟩
  rcases consistent.perform (.unload m) with ⟨after, frame⟩
  have isPlaced := stocked.placements ▸ found
  rcases stocked.cache.release (consistent.held.live (Placements.mem_of_find? isPlaced).1) with
    ⟨cache, released, outlined⟩
  have performed : e.perform (.unload m) =
      { e with cache, placements := stock.placements.erase m } := by
    simp only [perform, Engine.unload, stocked.placements, found, released]
  rw [performed] at after frame ⊢
  exact ⟨stocked.recording, stocked.unseeded, rfl, stocked.count,
    frame.segmentation.trans stocked.segmentation, ⟨_, after⟩, outlined⟩

/-- So it is in a new engine with new heaps. -/
theorem of_reserve {o : Options} {host : Host} {cache : Cache}
    (segmented : Segmentation.ofOptions o = .ok s) (reserved : Cache.reserve s host = .ok cache)
    (backed : ∀ site ∈ cache.sites, site.Backed) :
    Stocked (Engine.start false cache) s ⟨[], 0, cache.heaps.map Heap.drawing⟩ := by
  rcases Cache.tidy_of_reserve reserved with ⟨tidy, rfl, _⟩
  have usable := Cache.usable_of_reserve segmented reserved
  have valid := (Cache.valid_of_reserve reserved).1
  exact of_fresh (.start false segmented reserved) ⟨valid, tidy, usable.active, backed, rfl⟩

theorem planFor_eq (stocked : Stocked e s stock) (ranking : List Method) :
    e.planFor ranking = Plan.ofRanking s stock.placements ranking := by
  rw [planFor, stocked.segmentation, stocked.placements]

/-- The moves of a pass begin in the scene that the stock opens. -/
theorem shows_opening (stocked : Stocked e s stock) (ranking : List Method) :
    (e.opened ranking).Shows s (stock.opening s ranking) := by
  rcases stocked.consistent with ⟨codes, consistent⟩
  rcases (begun_same e ranking).consistent consistent with ⟨begun, _⟩
  have plan := stocked.planFor_eq ranking
  constructor
  · exact stocked.segmentation
  · change applyRanks (e.planFor ranking) e.placements = _
    rw [plan, stocked.placements]
    rfl
  · exact ⟨codes, (begun.ranked ranking).held⟩
  · rfl
  · exact stocked.cache
  · exact congrArg Plan.moves plan
  all_goals rfl

end Stocked

/-- What a pass does whose moves are all made. -/
theorem runPass_of_run (moving : e.recording = false) (some : (e.planFor ranking).moves ≠ [])
    {t : Transit} (ran : (e.opened ranking).run = (.ok (), t)) (files : FileTree)
    (elapsed : Nat) :
    e.runPass files ranking elapsed =
      ⟨.ok { summary (PassReport.start (e.passes + 1)) (e.planFor ranking) t with elapsed },
        (((e.begun ranking).ranked ranking).moved t).finishPass
          { summary (PassReport.start (e.passes + 1)) (e.planFor ranking) t with elapsed },
        files⟩ := by
  have result := congrArg Prod.fst ran
  have transit := congrArg Prod.snd ran
  have made := reorder_of_moves (e := e.begun ranking) some (PassReport.start (e.passes + 1)) result
  rw [runPass_eq moving, made]
  dsimp only
  change (e.opened ranking).run.2 = t at transit
  rw [← transit]
  rfl

/-- A pass goes as its moves are played. -/
theorem Stocked.runPass (stocked : Stocked e s stock) (hot : s.isActive .hot = true)
    (tmp : s.isActive .tmp = true)
    (some : (stock.opening s ranking).pending ≠ [])
    (plays : Scene.Plays s (stock.opening s ranking) last) (files : FileTree) (elapsed : Nat) :
    Stocked (e.runPass files ranking elapsed).engine s (stock.after last) ∧
      ∃ report logged, (e.runPass files ranking elapsed).result = .ok report ∧
        report.unplaced = last.failures.length ∧ report.relocated = last.moved.length ∧
        (e.runPass files ranking elapsed).engine.events = e.events ++ logged ∧
        logged.filter Event.isPlacementFailure = last.failures.map Transit.failed := by
  have active (p : Partition) : p.isManaged = true → s.isActive p = true :=
    Segmentation.isActive_of_isManaged hot tmp
  rcases (stocked.shows_opening ranking).run active plays with ⟨t, ran, shows⟩
  have moves : (e.planFor ranking).moves ≠ [] := by
    rw [stocked.planFor_eq]
    exact some
  have passed := runPass_of_run stocked.recording moves ran files elapsed
  rcases stocked.consistent with ⟨codes, consistent⟩
  rcases consistent.runPass files ranking elapsed with ⟨after, _⟩
  rcases opening_quiet e ranking with ⟨before, opening, quietBefore⟩
  constructor
  · rw [passed] at after ⊢
    exact ⟨stocked.recording, stocked.unseeded, shows.placements, stocked.count,
      shows.segmentation, ⟨_, after⟩, shows.cache⟩
  · obtain ⟨report, isReport⟩ : ∃ report, report =
        { summary (PassReport.start (e.passes + 1)) (e.planFor ranking) t with elapsed } :=
      ⟨_, rfl⟩
    rw [← isReport] at passed
    refine ⟨report, before ++ t.events ++ [.passEnd report.pass report.relocated
      report.bytesMoved report.unplaced (PassReport.milliseconds report.elapsed)],
      congrArg Outcome.result passed, ?_, ?_, ?_, ?_⟩
    · rw [isReport]
      exact shows.unplaced
    · rw [isReport]
      exact congrArg List.length shows.moved
    · rw [passed]
      change ((e.begun ranking).ranked ranking).events ++ t.events ++ [_] = _
      rw [opening]
      simp only [List.append_assoc]
    · rw [List.filter_append, List.filter_append, (Event.filter_quiet quietBefore).1,
        shows.failures]
      simp [Event.isPlacementFailure]

/-! ## Stocks -/

/-- Code of a given length. -/
def filler (length : Nat) : ByteArray :=
  ⟨Array.replicate length 0⟩

theorem size_filler (length : Nat) : (filler length).size = length :=
  Array.size_replicate

theorem short_filler {length : Nat} (short : length ≤ Size.largest) :
    (filler length).size ≤ Size.largest :=
  (size_filler length).symm ▸ short

theorem short_word (length : UInt32) : length.toNat ≤ Size.largest :=
  Nat.le_trans (Nat.le_of_lt length.toNat_lt) (by decide)

/-- A call that adds a new method or takes one out. -/
inductive Load where
  | add (m : Method) (length : UInt32) (p : Partition)
  | drop (m : Method)

def Load.call : Load → Call
  | add m length p => .install m (filler length.toNat) p (short_filler (short_word length))
  | drop m => .unload m

/-- The stock after a call, if a new method finds room in its partition or the
method is there. -/
def Stock.next? (s : Segmentation) (stock : Stock) : Load → Option Stock
  | .add m length p =>
    if stock.placements.find? m = none ∧ s.isActive p = true then
      (stock.outline.place? p m length.toNat).map fun (b, next) =>
        ⟨stock.placements ++ [⟨m, b, none, stock.count + 1⟩], stock.count + 1, next⟩
    else none
  | .drop m =>
    (stock.placements.find? m).map fun placed =>
      ⟨stock.placements.erase m, stock.count, stock.outline.vacate placed.blob⟩

/-- Calls change the stock one after another. -/
theorem Stocked.performAll (stocked : Stocked e s stock) {loads : List Load} {goal : Stock}
    (follows : loads.foldlM (Stock.next? s) stock = some goal) :
    Stocked (e.performAll (loads.map Load.call)) s goal := by
  induction loads generalizing e stock with
  | nil =>
      cases follows
      exact stocked
  | cons load rest inductionHypothesis =>
      rw [List.foldlM_cons] at follows
      rcases Option.bind_eq_some_iff.mp follows with ⟨middle, made, later⟩
      apply inductionHypothesis _ later
      cases load with
      | add m length p =>
          rw [Stock.next?] at made
          split at made
          · rename_i possible
            rcases Option.map_eq_some_iff.mp made with ⟨⟨b, next⟩, room, rfl⟩
            exact stocked.install possible.1 possible.2 (size_filler length.toNat)
              (short_filler (short_word length)) room
          · contradiction
      | drop m =>
          rcases Option.map_eq_some_iff.mp made with ⟨placed, found, rfl⟩
          exact stocked.unload found

/-! ## Two machines -/

def thirdMethod : Method := ⟨"Main", "third", "()V"⟩

def fourthMethod : Method := ⟨"Main", "fourth", "()V"⟩

def fifthMethod : Method := ⟨"Main", "fifth", "()V"⟩

def sixthMethod : Method := ⟨"Main", "sixth", "()V"⟩

theorem stocked_small : Stocked (Engine.start false smallCache) smallSegmentation
    ⟨[], 0, smallCache.heaps.map Heap.drawing⟩ := by
  have reserved : Cache.reserve smallSegmentation smallHost = .ok smallCache := rfl
  have segmented : Segmentation.ofOptions smallOptions = .ok smallSegmentation := rfl
  exact .of_reserve segmented reserved (by decide)

def narrowOptions : Options :=
  { smallOptions with
    hotHeapSize := some 131072
    nonProfiledSize := 327680 }

def narrowSegmentation : Segmentation where
  active := Segmentation.activeOf narrowOptions
  capacity p :=
    if p = .nonProfiled then 65536 else Segmentation.requestedCapacity narrowOptions p

/-- A cache whose managed partitions are larger than the fallback partition. -/
def narrowCache : Cache where
  segmentation := narrowSegmentation
  heaps :=
    [emptyHeap .nonProfiled 0x1000000 65536, emptyHeap .profiled 0x2000000 1048576,
      emptyHeap .hot 0x3000000 131072, emptyHeap .tmp 0x4000000 131072,
      emptyHeap .nonMethod 0x5000000 65536]

theorem segmented_narrow : Segmentation.ofOptions narrowOptions = .ok narrowSegmentation :=
  rfl

theorem reserved_narrow : Cache.reserve narrowSegmentation smallHost = .ok narrowCache :=
  rfl

theorem fresh_narrow : Fresh (Engine.start false narrowCache) :=
  .start false segmented_narrow reserved_narrow

theorem stocked_narrow : Stocked (Engine.start false narrowCache) narrowSegmentation
    ⟨[], 0, narrowCache.heaps.map Heap.drawing⟩ :=
  .of_reserve segmented_narrow reserved_narrow (by decide)

end CodeLayout.Engine
