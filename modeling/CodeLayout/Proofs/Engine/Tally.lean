import CodeLayout.Proofs.Engine.Ledger
import CodeLayout.Proofs.Engine.Totals
import CodeLayout.Proofs.Transit.Tally

/-!
# The tally of a pass

A report gives the bytes and the methods that the log of the pass tells of, and the
methods without a rank that have left the managed partitions.  The statistics add up the
reports of a run of passes.
-/

namespace CodeLayout

namespace Event

/-- The bytes that an event says have moved. -/
def bytesMoved : Event → Nat
  | .methodRelocated _ _ _ size => size
  | _ => 0

/-- The name of the method that an event says has moved. -/
def relocated? : Event → Option String
  | .methodRelocated method .. => some method
  | _ => none

/-- Other events say neither. -/
theorem other_of_not_relocation {event : Event} (other : event.isRelocation = false) :
    event.bytesMoved = 0 ∧ event.relocated? = none := by
  cases event with
  | methodRelocated method source target size => contradiction
  | _ => exact ⟨rfl, rfl⟩

theorem sum_bytesMoved (events : List Event) :
    (events.map bytesMoved).sum = ((events.filter isRelocation).map bytesMoved).sum := by
  induction events with
  | nil => rfl
  | cons event rest inductionHypothesis =>
      rw [List.map_cons, List.sum_cons, inductionHypothesis, List.filter_cons]
      cases isRelocated : event.isRelocation with
      | false => simp [(other_of_not_relocation isRelocated).1]
      | true => simp

theorem filterMap_relocated (events : List Event) :
    events.filterMap relocated? = (events.filter isRelocation).filterMap relocated? := by
  rw [List.filterMap_filter]
  apply List.filterMap_congr
  intro event _
  split
  · rfl
  · rename_i other
    exact (other_of_not_relocation (Bool.eq_false_of_not_eq_true other)).2

end Event

namespace Engine

open Transit (Relocation Tally Graded Counted Leads Stage)

variable {e : Engine} {code : Method → Option ByteArray} {ranking : List Method}
  {p : Placement} {made : List Relocation}

/-- A method without a rank was in a managed partition, and it is in none afterwards. -/
def isEvicted (ranking : List Method) (after : Placements) (p : Placement) : Bool :=
  decide (p.method ∉ ranking) && p.partition.isManaged &&
    !(after.find? p.method).any fun q => q.partition.isManaged

/-- A report accounts for what a pass has logged and done.  Each relocation is listed, with
its method. -/
structure Accounts (e : Engine) (ranking : List Method) (outcome : Outcome PassReport)
    (report : PassReport) (logged : List Event) (made : List Relocation) : Prop where
  result : outcome.result = .ok report
  events : outcome.engine.events = e.events ++ logged
  relocations : logged.filter Event.isRelocation = made.map Relocation.event
  installed : ∀ r ∈ made, r.method ∈ e.placements.map Placement.method
  bytesMoved : report.bytesMoved = (logged.map Event.bytesMoved).sum
  relocated : report.relocated = (made.map Relocation.method).eraseDups.length
  /-- Where no two methods have the same name, the log has as many names. -/
  names : (∀ p ∈ e.placements, ∀ q ∈ e.placements,
      p.method.display = q.method.display → p.method = q.method) →
    report.relocated = (logged.filterMap Event.relocated?).eraseDups.length
  unplaced : report.unplaced = logged.countP Event.isPlacementFailure
  evicted : report.evicted = e.placements.countP (isEvicted ranking outcome.engine.placements)
  /-- Whoever is evicted moves once, to the fallback partition. -/
  once : ∀ p ∈ e.placements, isEvicted ranking outcome.engine.placements p = true →
    made.filter (fun r => r.method = p.method) =
      [⟨p.method, p.partition, e.cache.segmentation.fallback, p.size⟩]

/-- The state of a method after a pass tells whether it was evicted. -/
theorem isEvicted_iff {after : Placements} {q : Placement}
    (found : after.find? p.method = some q) :
    isEvicted ranking after p = true ↔
      p.method ∉ ranking ∧ p.partition.isManaged = true ∧ q.partition.isManaged = false := by
  rw [isEvicted, found]
  simp [and_assoc]

/-- The log tells the methods apart if their names do. -/
theorem length_relocated {logged : List Event}
    (relocations : logged.filter Event.isRelocation = made.map Relocation.event)
    (apart : ∀ r ∈ made, ∀ s ∈ made, r.method.display = s.method.display → r.method = s.method) :
    (logged.filterMap Event.relocated?).eraseDups.length =
      (made.map Relocation.method).eraseDups.length := by
  have names : logged.filterMap Event.relocated? =
      (made.map Relocation.method).map Method.display := by
    rw [Event.filterMap_relocated, relocations, List.filterMap_map, List.map_map,
      ← List.filterMap_eq_map]
    rfl
  have told : ∀ m ∈ made.map Relocation.method, ∀ n ∈ made.map Relocation.method,
      m.display = n.display → m = n := by
    intro m isFirst n isSecond same
    rcases List.mem_map.mp isFirst with ⟨r, isMade, rfl⟩
    rcases List.mem_map.mp isSecond with ⟨s, isMadeToo, rfl⟩
    exact apart r isMade s isMadeToo same
  rw [names, Distinct.eraseDups_map Method.display _ told, List.length_map]

/-! ## The beginning of a pass -/

/-- An installed method has a rank if the ranking names it. -/
theorem rankOf_eq_none_iff_of_mem (nodup : (e.placements.map Placement.method).Nodup)
    (member : p ∈ e.placements) :
    (e.planFor ranking).rankOf p.method = none ↔ p.method ∉ ranking := by
  have installed : e.placements.contains p.method = true := by
    rw [Placements.contains, Placements.find?_of_mem nodup member]
    rfl
  rw [planFor, Plan.rankOf_ofRanking, List.idxOf?_eq_none_iff, Plan.mem_listed]
  simp [installed]

/-- Whoever is placed before the moves was installed before the pass. -/
theorem exists_of_opened (member : p ∈ (e.opened ranking).placements) :
    ∃ q ∈ e.placements, p = { q with rank := (e.planFor ranking).rankOf q.method } := by
  rcases List.mem_map.mp member with ⟨q, isPlacement, rfl⟩
  exact ⟨q, isPlacement, rfl⟩

theorem graded_opened (e : Engine) (ranking : List Method) :
    Graded (e.planFor ranking).rankOf (.moving (e.opened ranking)) := by
  have cases {move : Move} (member : move ∈ (e.opened ranking).pending) :=
    Plan.move_cases e.cache.segmentation e.placements ranking member
  constructor
  · intro p member
    rcases exists_of_opened member with ⟨q, _, rfl⟩
    rfl
  · intro move member
    rcases cases member with ⟨unranked, q, _, _, rfl⟩ | ⟨rank, isRank, ranked⟩
    · exact unranked.symm
    · exact isRank.trans ranked.symm
  · intro resident member
    contradiction
  · intro move member isNone
    rcases cases member with ⟨_, q, _, _, rfl⟩ | ⟨rank, isRank, _⟩
    · rfl
    · cases isNone.symm.trans isRank
  · exact Plan.evictions_inFront e.cache.segmentation e.placements ranking
  · intro moves t isSettling
    contradiction

/-- At first nothing has moved, and those who wait without a rank are in managed
partitions. -/
theorem Consistent.tally_opened (consistent : e.Consistent code) (ranking : List Method) :
    Tally (e.planFor ranking).rankOf (e.opened ranking).placements
      (.moving (e.opened ranking)) [] := by
  constructor
  · exact ⟨rfl, fun _ isMade => absurd isMade List.not_mem_nil, rfl, rfl, rfl⟩
  · rfl
  · exact List.nodup_nil
  · exact fun _ isMade => absurd isMade List.not_mem_nil
  · exact fun p member _ => Or.inr ⟨List.not_mem_nil, member⟩
  · intro p member unranked waits
    rcases exists_of_opened member with ⟨q, isPlacement, rfl⟩
    rcases List.mem_map.mp waits with ⟨move, isMove, sameMethod⟩
    rcases Plan.move_cases e.cache.segmentation e.placements ranking isMove with
      ⟨_, r, isOther, managed, rfl⟩ | ⟨rank, _, ranked⟩
    · have same : r = q :=
        List.inj_on_of_nodup_map consistent.held.methods isOther isPlacement sameMethod
      exact same ▸ managed
    · rw [sameMethod] at ranked
      cases unranked.symm.trans ranked

/-! ## The end of a pass -/

section Ending

variable {after : Transit}
  (tally : Tally (e.planFor ranking).rankOf (e.opened ranking).placements (.done after) made)
  (nodup : (e.placements.map Placement.method).Nodup)
  (nodupAfter : (after.placements.map Placement.method).Nodup)

include tally nodup

/-- A relocation without a rank is the one of a method that was installed. -/
theorem exists_of_eviction {r : Relocation} (isMade : r ∈ made)
    (isEviction : r.isEviction (e.planFor ranking).rankOf = true) :
    ∃ q ∈ e.placements, q.method ∉ ranking ∧ q.partition.isManaged = true ∧
      r = ⟨q.method, q.partition, after.fallback, q.size⟩ := by
  have unranked := Relocation.isEviction_iff.mp isEviction
  rcases tally.evictions r isMade unranked with ⟨_, p, isBefore, managed, isRelocation⟩
  rcases exists_of_opened isBefore with ⟨q, isPlacement, rfl⟩
  refine ⟨q, isPlacement, ?_, managed, isRelocation⟩
  rw [isRelocation] at unranked
  exact (rankOf_eq_none_iff_of_mem nodup isPlacement).mp unranked

omit nodup in
/-- Whoever was installed before the pass is installed after it. -/
theorem exists_after (member : p ∈ e.placements) :
    ∃ q ∈ after.placements, q.method = p.method := by
  have methods : after.placements.map Placement.method = e.placements.map Placement.method :=
    tally.counted.methods.trans List.map_map
  have installed : p.method ∈ after.placements.map Placement.method := by
    rw [methods]
    exact List.mem_map_of_mem member
  exact List.mem_map.mp installed

include nodupAfter

/-- The methods evicted are those whose moves were counted as evictions. -/
theorem mem_evictions_iff (member : p ∈ e.placements) :
    isEvicted ranking after.placements p = true ↔
      p.method ∈ (made.filter (Relocation.isEviction (e.planFor ranking).rankOf)).map
        Relocation.method := by
  rcases exists_after tally member with ⟨q, isPlacement, sameMethod⟩
  have found : after.placements.find? p.method = some q := by
    rw [← sameMethod]
    exact Placements.find?_of_mem nodupAfter isPlacement
  rw [isEvicted_iff found]
  constructor
  · rintro ⟨unlisted, managed, outside⟩
    have unranked := (rankOf_eq_none_iff_of_mem nodup member).mpr unlisted
    rw [← sameMethod] at unranked
    rcases tally.unranked q isPlacement unranked with ⟨isMade, _⟩ | ⟨_, isBefore⟩
    · rcases List.mem_map.mp isMade with ⟨r, isRelocation, isMethod⟩
      rw [← sameMethod, ← isMethod]
      apply List.mem_map_of_mem
      rw [List.mem_filter, Relocation.isEviction_iff, isMethod]
      exact ⟨isRelocation, unranked⟩
    · rcases exists_of_opened isBefore with ⟨r, isOther, rfl⟩
      have same : r = p := List.inj_on_of_nodup_map nodup isOther member sameMethod
      rw [same] at outside
      cases outside.symm.trans managed
  · intro isMade
    rcases List.mem_map.mp isMade with ⟨r, isEviction, isMethod⟩
    rcases List.mem_filter.mp isEviction with ⟨isRelocation, holds⟩
    rcases exists_of_eviction tally nodup isRelocation holds with
      ⟨s, isOther, unlisted, managed, rfl⟩
    have same : s = p := List.inj_on_of_nodup_map nodup isOther member isMethod
    rw [same] at unlisted managed
    refine ⟨unlisted, managed, ?_⟩
    have unranked := (rankOf_eq_none_iff_of_mem nodup member).mpr unlisted
    rw [← sameMethod] at unranked
    have isListed : q.method ∈ made.map Relocation.method := by
      rw [sameMethod, ← same]
      exact List.mem_map_of_mem isRelocation
    rcases tally.unranked q isPlacement unranked with ⟨_, there⟩ | ⟨notMade, _⟩
    · rw [there]
      exact Plan.isManaged_fallback _
    · exact absurd isListed notMade

theorem countP_evictions :
    made.countP (Relocation.isEviction (e.planFor ranking).rankOf) =
      e.placements.countP (isEvicted ranking after.placements) := by
  have leaving : ((e.placements.filter (isEvicted ranking after.placements)).map
      Placement.method).Nodup := nodup.sublist (List.filter_sublist.map _)
  have perm : ((made.filter (Relocation.isEviction (e.planFor ranking).rankOf)).map
      Relocation.method).Perm
      ((e.placements.filter (isEvicted ranking after.placements)).map Placement.method) := by
    apply (List.perm_ext_iff_of_nodup tally.once leaving).mpr
    intro n
    constructor
    · intro isMade
      rcases List.mem_map.mp isMade with ⟨r, isEviction, rfl⟩
      rcases List.mem_filter.mp isEviction with ⟨isRelocation, holds⟩
      rcases exists_of_eviction tally nodup isRelocation holds with ⟨q, member, _, _, rfl⟩
      apply List.mem_map_of_mem (f := Placement.method)
      exact List.mem_filter.mpr
        ⟨member, (mem_evictions_iff tally nodup nodupAfter member).mpr isMade⟩
    · intro isLeaving
      rcases List.mem_map.mp isLeaving with ⟨q, kept, rfl⟩
      rcases List.mem_filter.mp kept with ⟨member, holds⟩
      exact (mem_evictions_iff tally nodup nodupAfter member).mp holds
  have sameLength := perm.length_eq
  rw [List.length_map, List.length_map] at sameLength
  rw [List.countP_eq_length_filter, List.countP_eq_length_filter, sameLength]

/-- A method that is evicted is on the list once. -/
theorem filter_of_evicted (member : p ∈ e.placements)
    (evicted : isEvicted ranking after.placements p = true) :
    made.filter (fun r => r.method = p.method) =
      [⟨p.method, p.partition, after.fallback, p.size⟩] := by
  rcases List.mem_map.mp ((mem_evictions_iff tally nodup nodupAfter member).mp evicted) with
    ⟨r, isEviction, sameMethod⟩
  rcases List.mem_filter.mp isEviction with ⟨isRelocation, holds⟩
  rcases exists_of_eviction tally nodup isRelocation holds with ⟨q, isOther, _, _, isRecord⟩
  have only := Distinct.filter_key_eq tally.once isEviction
  have sameFilter : (made.filter (Relocation.isEviction (e.planFor ranking).rankOf)).filter
      (fun s => s.method = r.method) = made.filter fun s => s.method = r.method := by
    rw [List.filter_filter]
    apply List.filter_congr
    intro s _
    by_cases same : s.method = r.method
    · have alsoEviction : s.isEviction (e.planFor ranking).rankOf = true := by
        rw [Relocation.isEviction, same]
        exact holds
      simp [same, alsoEviction]
    · simp [same]
  rw [← sameMethod, ← sameFilter, only, isRecord]
  have same : q = p := by
    rw [isRecord] at sameMethod
    exact List.inj_on_of_nodup_map nodup isOther member sameMethod
  rw [same]

end Ending

/-- The bytes and the methods are read off the log. -/
theorem Consistent.accounts (consistent : e.Consistent code) (usable : e.cache.Usable)
    (moving : e.recording = false) (files : FileTree) (ranking : List Method) (elapsed : Nat) :
    ∃ report logged made,
      Accounts e ranking (e.runPass files ranking elapsed) report logged made := by
  rcases consistent.completes usable moving files ranking elapsed with ⟨report, t, completes⟩
  rcases completes.leads.tally (consistent.governed ranking) (graded_opened e ranking)
    (consistent.tally_opened ranking) with ⟨made, tally⟩
  rcases completes.events with ⟨before, behind, events, quietBefore, quietBehind⟩
  have held : (e.opened ranking).Held code := (consistent.governed ranking).held
  rcases completes.leads.steps.held held with ⟨heldAfter, frame⟩
  rcases completes.leads.steps.log held with ⟨more, log, unplaced⟩
  have sameLog : more = t.events := log.symm
  have nodup := consistent.held.methods
  have nodupAfter : (t.placements.map Placement.method).Nodup := heldAfter.methods
  have relocations : (before ++ t.events ++ behind).filter Event.isRelocation =
      made.map Relocation.event := by
    rw [List.filter_append, List.filter_append, (Event.filter_quiet quietBefore).2,
      (Event.filter_quiet quietBehind).2, List.nil_append, List.append_nil]
    exact tally.counted.events
  have methods : (e.opened ranking).placements.map Placement.method =
    e.placements.map Placement.method := List.map_map
  have installed : ∀ r ∈ made, r.method ∈ e.placements.map Placement.method := by
    rw [← methods]
    exact tally.counted.installed
  have relocated : report.relocated = (made.map Relocation.method).eraseDups.length := by
    rw [completes.isReport]
    exact congrArg List.length tally.counted.moved
  refine ⟨report, before ++ t.events ++ behind, made, ?_⟩
  constructor
  · exact completes.result
  · rw [events]
    simp only [List.append_assoc]
  · exact relocations
  · exact installed
  · rw [Event.sum_bytesMoved, relocations, List.map_map, completes.isReport]
    exact tally.counted.bytesMoved
  · exact relocated
  · intro apart
    rw [relocated, length_relocated relocations]
    intro r isMade s isMadeToo same
    rcases List.mem_map.mp (installed r isMade) with ⟨p, first, sameFirst⟩
    rcases List.mem_map.mp (installed s isMadeToo) with ⟨q, second, sameSecond⟩
    rw [← sameFirst, ← sameSecond] at same ⊢
    exact apart p first q second same
  · rcases Event.countP_quiet quietBefore with ⟨noneBefore, _⟩
    rcases Event.countP_quiet quietBehind with ⟨noneBehind, _⟩
    rw [List.countP_append, List.countP_append, noneBefore, noneBehind, completes.isReport,
      ← sameLog, Nat.zero_add, Nat.add_zero]
    exact unplaced.trans (Nat.zero_add _)
  · rw [completes.placements, completes.isReport, ← countP_evictions tally nodup nodupAfter]
    exact tally.evicted
  · rw [completes.placements]
    intro p member evicted
    have fallback : t.fallback = e.cache.segmentation.fallback :=
      congrArg Segmentation.fallback frame.segmentation
    rw [← fallback]
    exact filter_of_evicted tally nodup nodupAfter member evicted

/-- The ranking that a pass follows if a seed may come first. -/
def followed (e : Engine) (ranking : List Method) : List Method :=
  match e.seed with
  | some order => if e.seedUsed then ranking else order.ranking
  | none => ranking

theorem runWith_cases (e : Engine) (files : FileTree) (ranking : List Method) (elapsed : Nat) :
    e.followed ranking = ranking ∧
        e.runWith files ranking elapsed = e.runPass files ranking elapsed ∨
      e.runWith files ranking elapsed =
        { e with seedUsed := true }.runPass files (e.followed ranking) elapsed := by
  unfold Engine.runWith followed
  cases e.seed with
  | none => exact Or.inl ⟨rfl, rfl⟩
  | some order =>
      cases e.seedUsed with
      | true => exact Or.inl ⟨rfl, rfl⟩
      | false => exact Or.inr rfl

theorem Consistent.accounts_runWith (consistent : e.Consistent code) (usable : e.cache.Usable)
    (moving : e.recording = false) (files : FileTree) (ranking : List Method) (elapsed : Nat) :
    ∃ report logged made, Accounts e (e.followed ranking) (e.runWith files ranking elapsed)
      report logged made := by
  rcases runWith_cases e files ranking elapsed with ⟨same, equal⟩ | equal
  · rw [same, equal]
    exact consistent.accounts usable moving files ranking elapsed
  · have marked : Consistent { e with seedUsed := true } code :=
      ⟨consistent.held, consistent.numbered⟩
    rcases marked.accounts usable moving files (e.followed ranking) elapsed with
      ⟨report, logged, made, accounts⟩
    rw [equal]
    exact ⟨report, logged, made, accounts.result, accounts.events, accounts.relocations,
      accounts.installed, accounts.bytesMoved, accounts.relocated, accounts.names,
      accounts.unplaced, accounts.evicted, accounts.once⟩

/-- After any calls the passes are counted and their reports added up, and the report of the
next moving pass accounts for all that it does. -/
theorem accounts_performAll (fresh : Fresh e) (calls : List Call) :
    Totals (e.performAll calls).passes (e.performAll calls).statistics calls (e.reports calls) ∧
      ((e.performAll calls).recording = false → ∀ files ranking elapsed,
        (∃ report logged made, Accounts (e.performAll calls) ranking
          ((e.performAll calls).runPass files ranking elapsed) report logged made) ∧
        ∃ report logged made,
          Accounts (e.performAll calls) ((e.performAll calls).followed ranking)
            ((e.performAll calls).runWith files ranking elapsed) report logged made) := by
  refine ⟨fresh.totals calls, ?_⟩
  intro moving files ranking elapsed
  have reached : Reached (e.performAll calls) := ⟨e, calls, fresh, rfl⟩
  rcases reached.consistent with ⟨code, consistent⟩
  have usable := reached.ready.1
  exact ⟨consistent.accounts usable moving files ranking elapsed,
    consistent.accounts_runWith usable moving files ranking elapsed⟩

/-- Two installations and the exchange of the methods that they install. -/
def exchangeCalls : List Call :=
  [.install firstMethod ⟨#[1, 2, 3]⟩ .hot short_first,
    .install secondMethod ⟨#[4, 5]⟩ .nonProfiled short_second, exchange]

/-- The first method is evicted by the exchange, and the statistics have it. -/
theorem accounts_exchange :
    Fresh (Engine.start false smallCache) ∧
      (∃ report logged made, Accounts smallEngine [secondMethod]
        (smallEngine.runPass FileTree.empty [secondMethod] 0) report logged made ∧
        report.evicted = 1) ∧
      (smallEngine.perform exchange).passes = 1 ∧
      (smallEngine.perform exchange).statistics.evictions.toNat = 1 := by
  have fresh := fresh_small false
  rcases ((accounts_performAll fresh (exchangeCalls.take 2)).2 rfl FileTree.empty [secondMethod]
    0).1 with ⟨report, logged, made, accounts⟩
  have totals := (accounts_performAll fresh exchangeCalls).1
  have evicted : report.evicted = 1 := by
    have placements : (smallEngine.runPass FileTree.empty [secondMethod] 0).engine.placements =
      exchangeOpening.run.2.placements := perform_exchange.1.placements
    have counted := accounts.evicted
    change report.evicted = smallEngine.placements.countP (isEvicted [secondMethod]
      (smallEngine.runPass FileTree.empty [secondMethod] 0).engine.placements) at counted
    rw [counted, placements, run_exchange.2.1]
    decide
  have reports : (Engine.start false smallCache).reports exchangeCalls = [report] := by
    have result : (smallEngine.runPass FileTree.empty [secondMethod] 0).result = .ok report :=
      accounts.result
    change (smallEngine.runPass FileTree.empty [secondMethod] 0).result.toOption.toList ++ [] = _
    rw [result]
    rfl
  refine ⟨fresh, ⟨report, logged, made, accounts, evicted⟩, totals.runs, ?_⟩
  have sum := totals.evictions
  rw [reports] at sum
  change (smallEngine.perform exchange).statistics.evictions.toNat = _ at sum
  rw [sum]
  simp [evicted]

end Engine

end CodeLayout
