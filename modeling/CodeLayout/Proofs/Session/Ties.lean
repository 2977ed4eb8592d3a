import CodeLayout.Proofs.Engine.Consistency
import CodeLayout.Proofs.Hotness.Ranking
import CodeLayout.Proofs.Startup.Fitting

/-!
# Ties in a session

The profiler and the engine of a session number the compilations, each on its own.  The
engine counts code that is installed, and the profiler counts every compilation, before it
is known whether the code finds room.  A tie between equally sampled methods is decided by
the number of the profiler.  So the method with the newer code comes first exactly as long
as the other one has not been compiled in vain after it.
-/

namespace CodeLayout

/-! ## The numbers of the engine -/

/-- Which compilation of which method the code is from. -/
def Placement.origin (p : Placement) : Method × Nat :=
  (p.method, p.compiled)

namespace Engine

variable {e : Engine} {code : Method → Option ByteArray}

theorem origins_of_lasting {ps others : Placements}
    (same : ps.map Placement.lasting = others.map Placement.lasting) :
    ps.map Placement.origin = others.map Placement.origin := by
  have origins := congrArg (List.map fun l => (l.1, l.2.2.1)) same
  rw [List.map_map, List.map_map] at origins
  exact origins

namespace Consistent

/-- Ranks and moves do not change where code is from. -/
theorem origins_reorder (consistent : e.Consistent code) (ranking : List Method)
    (report : PassReport) :
    (e.reorder ranking report).2.placements.map Placement.origin =
      e.placements.map Placement.origin := by
  have ranked : (e.ranked ranking).placements.map Placement.origin =
      e.placements.map Placement.origin := List.map_map
  rw [reorder_eq]
  split
  · exact ranked
  · have held : ((e.ranked ranking).opening report.pass (e.planFor ranking).moves).Held code :=
      (consistent.ranked ranking).held
    have frame := ((Transit.run_steps _).held held).2
    exact (origins_of_lasting frame.placed).trans ranked

theorem origins_runPass (consistent : e.Consistent code) (files : FileTree)
    (ranking : List Method) (elapsed : Nat) :
    (e.runPass files ranking elapsed).engine.placements.map Placement.origin =
      e.placements.map Placement.origin := by
  cases mode : e.recording with
  | true => rw [(runPass_recording mode files ranking elapsed).placements]
  | false =>
      rw [(runPass_moving mode files ranking elapsed).1.placements]
      exact ((begun_same e ranking).consistent consistent).1.origins_reorder ranking _

theorem origins_runWith (consistent : e.Consistent code) (files : FileTree)
    (ranking : List Method) (elapsed : Nat) :
    (e.runWith files ranking elapsed).engine.placements.map Placement.origin =
      e.placements.map Placement.origin := by
  have marked : Consistent { e with seedUsed := true } code :=
    ⟨consistent.held, consistent.numbered⟩
  unfold Engine.runWith
  split
  · split
    · exact consistent.origins_runPass files ranking elapsed
    · exact marked.origins_runPass files _ elapsed
  · exact consistent.origins_runPass files ranking elapsed

end Consistent

end Engine

/-! ## The numbers of the profiler -/

namespace Hotness

variable {m n : Method} {history : List Action}

theorem samplesOf_ofHistory (m : Method) (history : List Action) :
    (ofHistory history).samplesOf m = (profile history m).samples := by
  rw [ofHistory_eq, samplesOf, List.find?_map]
  cases found : (entries history).find? ((fun p : Profile => p.method = m) ∘ profile history) with
  | some n =>
      have same := List.find?_some found
      rw [show n = m from of_decide_eq_true same]
      rfl
  | none =>
      have absent : m ∉ entries history := fun member =>
        absurd (decide_eq_true rfl) (List.find?_eq_none.mp found m member)
      rw [profile_of_not_mem absent]
      rfl

/-- Of two members of a list one stands in front. -/
theorem pair_sublist_or {α : Type} {a b : α} {l : List α} (first : a ∈ l) (second : b ∈ l)
    (differ : a ≠ b) : [a, b].Sublist l ∨ [b, a].Sublist l := by
  rcases List.append_of_mem first with ⟨before, behind, rfl⟩
  rcases List.mem_append.mp second with earlier | later
  · exact .inr ((List.singleton_sublist.mpr earlier).append
      (List.singleton_sublist.mpr List.mem_cons_self))
  · have behindFirst := (List.mem_cons.mp later).resolve_left (Ne.symm differ)
    exact .inl (((List.singleton_sublist.mpr behindFirst).cons_cons a).trans
      (List.sublist_append_right _ _))

/-- Of two equally sampled methods the one with the later compilation is ranked first. -/
theorem pair_sublist_ranking_iff (tied : (profile history m).samples = (profile history n).samples)
    (sampled : (profile history m).samples ≠ 0)
    (differ : compiledNumber m history ≠ compiledNumber n history) :
    [m, n].Sublist (ofHistory history).ranking ↔
      compiledNumber n history < compiledNumber m history := by
  have sorted := List.pairwise_mergeSort
    (fun k m n => (profile history k).before_trans (profile history m) (profile history n))
    (fun m n => (profile history m).before_total (profile history n))
    ((entries history).filter fun m => (profile history m).samples ≠ 0)
  have ranked {k : Method} (sampled : (profile history k).samples ≠ 0) :
      k ∈ ((entries history).filter fun m => (profile history m).samples ≠ 0).mergeSort
        fun m n => (profile history m).before (profile history n) := by
    rw [List.mem_mergeSort, List.mem_filter, decide_eq_true_iff]
    refine ⟨Decidable.byContradiction fun absent => sampled ?_, sampled⟩
    rw [profile_of_not_mem absent]
  have notLater {k l : Method} (tied : (profile history k).samples = (profile history l).samples)
      (first : (profile history k).before (profile history l)) :
      compiledNumber l history ≤ compiledNumber k history := by
    rcases (Profile.before_iff _ _).mp first with more | ⟨_, number⟩
    · rw [tied] at more
      exact absurd more (Nat.lt_irrefl _)
    · exact number
  have methods : m ≠ n := fun same => differ (congrArg (compiledNumber · history) same)
  rw [ranking_ofHistory]
  rw [List.pairwise_iff_forall_sublist] at sorted
  constructor
  · intro pair
    have number := notLater tied (sorted pair)
    omega
  · intro later
    refine (pair_sublist_or (ranked sampled) (ranked (tied ▸ sampled)) methods).resolve_right ?_
    intro pair
    have number := notLater tied.symm (sorted pair)
    omega

end Hotness

/-! ## Sessions in use -/

namespace Session

/-- What a session is used for. -/
inductive Use where
  | compile (m : Method) (code : ByteArray) (requested : Partition)
  | sample (m : Method) (samples : UInt64)
  | reorder (elapsed : Nat)

namespace Use

/-- The method that is compiled. -/
def compiled? : Use → Option Method
  | compile m _ _ => some m
  | sample _ _ | reorder _ => none

/-- What the profiler records. -/
def action? : Use → Option Hotness.Action
  | compile m _ _ => some (.compile m)
  | sample m samples => some (.sample m samples)
  | reorder _ => none

end Use

/-- The session after it is used, whether that succeeds or fails. -/
def use (s : Session) : Use → Session
  | .compile m code requested => (s.compile m code requested).2
  | .sample m samples => { s with hotness := s.hotness.sample m samples }
  | .reorder elapsed => (s.reorder elapsed).2

/-- The session after it is used several times, the last time first. -/
def after (s : Session) : List Use → Session
  | [] => s
  | last :: earlier => (s.after earlier).use last

/-- A method is compiled in vain. -/
def Refuses (s : Session) (m : Method) (use : Use) : Prop :=
  ∃ code requested fault, use = .compile m code requested ∧
    (s.compile m code requested).1 = .error fault

/-- A method has been compiled in vain after the last compilation of another one. -/
def RefusedSince (s : Session) (m n : Method) (uses : List Use) : Prop :=
  ∃ later use earlier, uses = later ++ use :: earlier ∧ (s.after earlier).Refuses m use ∧
    ∀ other ∈ later, other.compiled? ≠ some n

/-- What the profiler has recorded, the last action first. -/
def history (uses : List Use) : List Hotness.Action :=
  uses.filterMap Use.action?

variable {s : Session} {m n : Method} {last : Use} {uses : List Use}

theorem refusedSince_cons_iff :
    s.RefusedSince m n (last :: uses) ↔
      (s.after uses).Refuses m last ∨ last.compiled? ≠ some n ∧ s.RefusedSince m n uses := by
  constructor
  · rintro ⟨later, use, earlier, split, refuses, others⟩
    rcases List.cons_eq_append_iff.mp split with ⟨rfl, isUse⟩ | ⟨rest, rfl, rfl⟩
    · cases isUse
      exact .inl refuses
    · refine .inr ⟨others last List.mem_cons_self, rest, use, earlier, rfl, refuses, ?_⟩
      exact fun other member => others other (List.mem_cons_of_mem _ member)
  · rintro (refuses | ⟨other, later, use, earlier, rfl, refuses, others⟩)
    · exact ⟨[], last, uses, rfl, refuses, fun _ member => absurd member List.not_mem_nil⟩
    · exact ⟨last :: later, use, earlier, rfl, refuses, List.forall_mem_cons.mpr ⟨other, others⟩⟩

/-! ## One use after another -/

/-- Which of two methods with newer and older code has the later number of the profiler. -/
structure Decides (s : Session) (uses : List Use) (newer older : Method) : Prop where
  refused : s.RefusedSince older newer uses →
    Hotness.compiledNumber newer (history uses) < Hotness.compiledNumber older (history uses)
  unrefused : ¬ s.RefusedSince older newer uses →
    Hotness.compiledNumber older (history uses) < Hotness.compiledNumber newer (history uses)

namespace Decides

variable {newer older : Method} {code : ByteArray} {requested : Partition}

/-- What is compiled last has the latest number, whether it is installed or not. -/
theorem compiledNumber_lt (differ : n ≠ m) :
    Hotness.compiledNumber n (history (.compile m code requested :: uses)) <
      Hotness.compiledNumber m (history (.compile m code requested :: uses)) := by
  change (if m = n then _ else Hotness.compiledNumber n (history uses)) <
    if m = m then (history uses).countP Hotness.Action.isCompile + 1 else _
  rw [if_neg (Ne.symm differ), if_pos rfl]
  exact Nat.lt_succ_of_le (Hotness.compiledNumber_le n _)

/-- The method with the newer code is compiled. -/
theorem of_newer (differ : older ≠ newer) :
    Decides s (.compile newer code requested :: uses) newer older where
  refused since := by
    rcases refusedSince_cons_iff.mp since with ⟨_, _, _, isOlder, _⟩ | ⟨other, _⟩
    · cases isOlder
      exact absurd rfl differ
    · exact absurd rfl other
  unrefused _ := compiledNumber_lt differ

/-- The method with the older code is compiled in vain. -/
theorem of_older (differ : older ≠ newer)
    (refuses : (s.after uses).Refuses older (.compile older code requested)) :
    Decides s (.compile older code requested :: uses) newer older where
  refused _ := compiledNumber_lt differ.symm
  unrefused never := absurd (refusedSince_cons_iff.mpr (.inl refuses)) never

/-- Neither of the two is compiled. -/
theorem of_other (decides : Decides s uses newer older) (notNewer : last.compiled? ≠ some newer)
    (notOlder : last.compiled? ≠ some older) : Decides s (last :: uses) newer older := by
  have since : s.RefusedSince older newer (last :: uses) ↔ s.RefusedSince older newer uses := by
    rw [refusedSince_cons_iff, and_iff_right notNewer]
    refine or_iff_right ?_
    rintro ⟨code, requested, fault, isOlder, _⟩
    rw [isOlder] at notOlder
    exact notOlder rfl
  have number {k : Method} (other : last.compiled? ≠ some k) :
      Hotness.compiledNumber k (history (last :: uses)) =
        Hotness.compiledNumber k (history uses) := by
    cases last with
    | compile m code requested => exact if_neg fun same => other (congrArg some same)
    | sample m samples => rfl
    | reorder elapsed => rfl
  constructor
  · intro refused
    rw [number notNewer, number notOlder]
    exact decides.refused (since.mp refused)
  · intro unrefused
    rw [number notNewer, number notOlder]
    exact decides.unrefused (mt since.mpr unrefused)

end Decides

/-- Two methods have code of compilations that are numbered in this order, and what is used
decides between them. -/
structure Ordered (s : Session) (uses : List Use) (older newer : Method × Nat) : Prop where
  numbers : older.2 < newer.2
  methods : older.1 ≠ newer.1
  decides : Decides s uses newer.1 older.1

/-- Neither of the two methods is compiled. -/
theorem Ordered.of_other {older newer : Method × Nat} (ordered : Ordered s uses older newer)
    (notOlder : last.compiled? ≠ some older.1) (notNewer : last.compiled? ≠ some newer.1) :
    Ordered s (last :: uses) older newer :=
  ⟨ordered.numbers, ordered.methods, ordered.decides.of_other notNewer notOlder⟩

/-- A third method is compiled. -/
theorem Ordered.of_third {older newer : Method × Nat} {code : ByteArray} {requested : Partition}
    (ordered : Ordered s uses older newer) (notOlder : older.1 ≠ m) (notNewer : newer.1 ≠ m) :
    Ordered s (.compile m code requested :: uses) older newer :=
  ordered.of_other (fun same => notOlder (Option.some.inj same).symm)
    fun same => notNewer (Option.some.inj same).symm

/-- Profiler and engine of a session in use.  Code is listed in the order in which it was
installed. -/
structure Counts (s : Session) (uses : List Use) (e : Engine) : Prop where
  store : (s.after uses).store = .reordered e
  hotness : (s.after uses).hotness = Hotness.ofHistory (history uses)
  consistent : ∃ code, e.Consistent code
  ordered : (e.placements.map Placement.origin).Pairwise (Ordered s uses)

namespace Counts

variable {e : Engine} {code : ByteArray} {requested : Partition}

/-- Where nothing is compiled, everything stays in order. -/
theorem ordered_of_idle (counts : Counts s uses e) (idle : last.compiled? = none) :
    (e.placements.map Placement.origin).Pairwise (Ordered s (last :: uses)) :=
  counts.ordered.imp fun ordered => ordered.of_other (by simp [idle]) (by simp [idle])

theorem sample (counts : Counts s uses e) (m : Method) (samples : UInt64) :
    Counts s (.sample m samples :: uses) e where
  store := counts.store
  hotness := by
    change (s.after uses).hotness.sample m samples = _
    rw [counts.hotness]
    rfl
  consistent := counts.consistent
  ordered := counts.ordered_of_idle rfl

theorem reorder (counts : Counts s uses e) (elapsed : Nat) :
    Counts s (.reorder elapsed :: uses) (e.runWith (s.after uses).files
      (s.after uses).hotness.ranking elapsed).engine := by
  rcases counts.consistent with ⟨code, consistent⟩
  have reorders : s.after (.reorder elapsed :: uses) = ((s.after uses).runPass e elapsed).2 := by
    change ((s.after uses).reorder elapsed).2 = _
    rw [Session.reorder, counts.store]
  refine ⟨by rw [reorders]; rfl, ?_, ⟨code, (consistent.runWith _ _ _).1⟩, ?_⟩
  · rw [reorders]
    exact counts.hotness
  · rw [consistent.origins_runWith]
    exact counts.ordered_of_idle rfl

/-- What is compiled in vain leaves the code as it is, but not the numbers of the profiler. -/
theorem ordered_of_refused (counts : Counts s uses e)
    (refuses : (s.after uses).Refuses m (.compile m code requested)) :
    (e.placements.map Placement.origin).Pairwise
      (Ordered s (.compile m code requested :: uses)) := by
  refine counts.ordered.imp fun {older newer} ordered => ?_
  -- A refused method keeps its earlier code, so it may be either one of the two.
  by_cases isNewer : newer.1 = m
  · subst isNewer
    exact ⟨ordered.numbers, ordered.methods, .of_newer ordered.methods⟩
  · by_cases isOlder : older.1 = m
    · subst isOlder
      exact ⟨ordered.numbers, ordered.methods, .of_older ordered.methods refuses⟩
    · exact ordered.of_third isOlder isNewer

/-- New code is numbered last by both. -/
theorem ordered_installed (counts : Counts s uses e) (b : Blob) (cache : Cache)
    (events : List Event) :
    ((e.installed m b cache events).placements.map Placement.origin).Pairwise
      (Ordered s (.compile m code requested :: uses)) := by
  rcases counts.consistent with ⟨codes, consistent⟩
  have old {p : Method × Nat} (member : p ∈ (e.placements.erase m).map Placement.origin) :
      p.1 ≠ m ∧ p.2 ≤ e.compilations := by
    rcases List.mem_map.mp member with ⟨placed, isOld, rfl⟩
    rcases List.mem_filter.mp isOld with ⟨isPlacement, other⟩
    exact ⟨of_decide_eq_true other, consistent.numbered placed isPlacement⟩
  have kept : ((e.placements.erase m).map Placement.origin).Pairwise (Ordered s uses) :=
    counts.ordered.sublist (List.filter_sublist.map _)
  rw [Engine.installed, List.map_append, List.map_singleton]
  refine List.pairwise_append.mpr ⟨?_, List.pairwise_singleton _ _, ?_⟩
  · exact kept.imp_of_mem fun first second ordered =>
      ordered.of_third (old first).1 (old second).1
  · intro p isOld q isNew
    rw [List.mem_singleton.mp isNew]
    exact ⟨Nat.lt_succ_of_le (old isOld).2, (old isOld).1, .of_newer (old isOld).1⟩

theorem compile (counts : Counts s uses e) (m : Method) (code : ByteArray)
    (requested : Partition) :
    Counts s (.compile m code requested :: uses) (e.install m code requested).2 := by
  rcases counts.consistent with ⟨codes, consistent⟩
  have compiles : (s.after uses).compile m code requested =
      ((e.install m code requested).1, { s.after uses with
        store := .reordered (e.install m code requested).2
        hotness := (s.after uses).hotness.compile m }) := by
    rw [Session.compile, counts.store]
  have used : s.after (.compile m code requested :: uses) = { s.after uses with
      store := .reordered (e.install m code requested).2
      hotness := (s.after uses).hotness.compile m } := congrArg Prod.snd compiles
  refine ⟨by rw [used], ?_, ⟨_, (consistent.install m code requested).1⟩, ?_⟩
  · rw [used]
    change (s.after uses).hotness.compile m = _
    rw [counts.hotness]
    rfl
  · rcases consistent.install_cases m code requested with
      ⟨fault, cache, events, refused, _⟩ | ⟨b, cache, events, made, _⟩
    · have refuses : (s.after uses).Refuses m (.compile m code requested) :=
        ⟨code, requested, fault, rfl, by rw [compiles, refused]⟩
      rw [refused]
      exact counts.ordered_of_refused refuses
    · rw [made]
      exact counts.ordered_installed b cache events

/-- Uses keep profiler and engine as they have to be. -/
theorem after (counts : Counts s [] e) (uses : List Use) : ∃ last, Counts s uses last := by
  induction uses with
  | nil => exact ⟨e, counts⟩
  | cons last earlier inductionHypothesis =>
      rcases inductionHypothesis with ⟨middle, counted⟩
      cases last with
      | compile m code requested => exact ⟨_, counted.compile m code requested⟩
      | sample m samples => exact ⟨_, counted.sample m samples⟩
      | reorder elapsed => exact ⟨_, counted.reorder elapsed⟩

end Counts

/-- Which of two methods, with older and newer code, is ranked first if they are equally
sampled. -/
structure SettlesTie (s : Session) (uses : List Use) (older newer : Placement) : Prop where
  numbers : older.compiled < newer.compiled
  first : (s.after uses).hotness.samplesOf older.method =
      (s.after uses).hotness.samplesOf newer.method →
    (s.after uses).hotness.samplesOf newer.method ≠ 0 →
      ([newer.method, older.method].Sublist (s.after uses).hotness.ranking ↔
        ¬ s.RefusedSince older.method newer.method uses) ∧
      ([older.method, newer.method].Sublist (s.after uses).hotness.ranking ↔
        s.RefusedSince older.method newer.method uses)

theorem Counts.settlesTie {e : Engine} {older newer : Placement} (counts : Counts s uses e)
    (ordered : Ordered s uses older.origin newer.origin) : s.SettlesTie uses older newer := by
  refine ⟨ordered.numbers, fun tied sampled => ?_⟩
  have decides := ordered.decides
  simp only [Placement.origin] at decides
  rw [counts.hotness, Hotness.samplesOf_ofHistory] at tied sampled
  rw [Hotness.samplesOf_ofHistory] at tied
  have olderSampled := tied ▸ sampled
  rw [counts.hotness]
  by_cases since : s.RefusedSince older.method newer.method uses
  · have number := decides.refused since
    rw [Hotness.pair_sublist_ranking_iff tied.symm sampled number.ne,
      Hotness.pair_sublist_ranking_iff tied olderSampled number.ne']
    exact ⟨iff_of_false number.asymm (not_not_intro since), iff_of_true number since⟩
  · have number := decides.unrefused since
    rw [Hotness.pair_sublist_ranking_iff tied.symm sampled number.ne',
      Hotness.pair_sublist_ranking_iff tied olderSampled number.ne]
    exact ⟨iff_of_true number since, iff_of_false number.asymm since⟩

end Session

/-! ## Sessions that are started -/

namespace Startup

variable {α β : Type} {x : Startup α} {f : α → Startup β} {P : β → Prop}

/-- If a start succeeds, its result has a property. -/
def Yields (x : Startup α) (P : α → Prop) : Prop :=
  ∀ s value after, outcome x s = (.ok value, after) → P value

theorem yields_pure {P : α → Prop} {value : α} (holds : P value) : Yields (pure value) P := by
  intro s result after succeeded
  cases succeeded
  exact holds

/-- The last step decides about the result. -/
theorem Yields.bind (last : ∀ value, Yields (f value) P) : Yields (x >>= f) P := by
  intro s value after succeeded
  rw [outcome_bind] at succeeded
  rcases ran : outcome x s with ⟨result, t⟩
  rw [ran] at succeeded
  cases result with
  | error fault => cases succeeded
  | ok middle => exact last middle t value after succeeded

theorem yields_startLoop {session : Session} (now : Moment)
    (unused : session.hotness = Hotness.empty) :
    Yields (startLoop session now) fun s => s.hotness = Hotness.empty := by
  unfold startLoop
  split
  · exact yields_pure unused
  · split
    · exact .bind fun _ => .bind fun _ => yields_pure unused
    · exact yields_pure unused

/-- Nothing is recorded yet when a session is started. -/
theorem yields_startReordering (o : Options) (host : Host) (now : Moment)
    (elapsed : Nat) :
    Yields (startReordering o host now elapsed) fun s => s.hotness = Hotness.empty := by
  rw [startReordering_eq]
  refine .bind fun _ => .bind fun _ => .bind fun path => ?_
  unfold startChosen
  refine .bind fun triggers => .bind fun seed => .bind fun chosen => .bind fun cache =>
    .bind fun engine => ?_
  unfold startEngine
  exact .bind fun _ => .bind fun _ => yields_startLoop now rfl

/-- The engine of any mode has not been used before its first pass. -/
theorem fresh_preparedEngine {o : Options} {host : Host} {files : FileTree}
    {cache : Cache} (reserved : IsReserved o host files cache) (mode : Mode)
    (path : Option String) (seed : Option Order) :
    Engine.Fresh (preparedEngine mode cache path seed) := by
  rcases reserved with ⟨segmentation, segmented, isReserved⟩
  have fresh : Engine.Fresh (Engine.start (mode = .dump) cache) := .start _ segmented isReserved
  have dumps : Engine.Fresh (if mode = .dump then
      { Engine.start (mode = .dump) cache with dumpPath := path }
      else Engine.start (mode = .dump) cache) := by
    split
    · exact .dumpTo fresh path
    · exact fresh
  unfold preparedEngine
  cases seed with
  | none => exact dumps
  | some order => exact .withSeed dumps order

/-- Profiler and engine of a session that is started have counted nothing. -/
theorem counts_of_run {o : Options} {host : Host} {files : FileTree} {now : Moment}
    {elapsed : Nat} {s : Session} {state : State} (enabled : o.enabled = true)
    (ran : run (session o host now elapsed) files = (.ok s, state)) : ∃ e, s.Counts [] e := by
  change outcome (session o host now elapsed) ⟨files, []⟩ = _ at ran
  rcases outcome_session o host now elapsed ⟨files, []⟩ with
    ⟨cause, _, isOutcome⟩ | ⟨_, ⟨_, consistent, capable, isOutcome⟩ | ⟨switch, _⟩⟩
  · rw [isOutcome] at ran
    cases ran
  · have makes : Makes o host files Check.all _ _ _ :=
      makes_startReordering enabled consistent capable now elapsed
    have unused := yields_startReordering o host now elapsed ⟨files, []⟩ s state
      (isOutcome.symm.trans ran)
    rw [Makes, ← isOutcome, ran] at makes
    rcases makes.2 with ⟨cache, before, behind, reserved, store⟩
    have fresh := fresh_preparedEngine reserved (Mode.ofOptions o) (usedPath? o)
      (loadedOrder? o files)
    have new := preparedEngine_placements (Mode.ofOptions o) cache (usedPath? o)
      (loadedOrder? o files)
    rcases fresh.consistent fun _ => none with ⟨held, numbered⟩
    have ready : ((preparedEngine (Mode.ofOptions o) cache (usedPath? o)
        (loadedOrder? o files)).report before).Consistent fun _ => none := ⟨held, numbered⟩
    rcases (ready.runWith (cleared o files) [] elapsed).1 with ⟨heldAfter, numberedAfter⟩
    refine ⟨_, store, unused, ⟨_, ⟨heldAfter, numberedAfter⟩⟩, ?_⟩
    have nothing := ready.origins_runWith (cleared o files) [] elapsed
    change ((Engine.Outcome.engine _).placements.map Placement.origin).Pairwise _
    rw [nothing]
    change ((preparedEngine _ _ _ _).placements.map Placement.origin).Pairwise _
    rw [new]
    exact List.Pairwise.nil
  · rw [enabled] at switch
    contradiction

/-- The code of a session is listed by the numbers of its compilations.  Of two equally
sampled methods the one with the newer code is ranked first exactly if the other one has not
been compiled in vain after it. -/
theorem settlesTies_of_run {o : Options} {host : Host} {files : FileTree} {now : Moment}
    {elapsed : Nat} {s : Session} {state : State} (enabled : o.enabled = true)
    (ran : run (session o host now elapsed) files = (.ok s, state)) (uses : List Session.Use) :
    ∃ e, (s.after uses).store = .reordered e ∧ e.placements.Pairwise (s.SettlesTie uses) := by
  rcases counts_of_run enabled ran with ⟨_, unused⟩
  rcases unused.after uses with ⟨e, counts⟩
  exact ⟨e, counts.store, (List.pairwise_map.mp counts.ordered).imp counts.settlesTie⟩

/-- Heaps with room for two methods only. -/
def cramped : Options :=
  { Options.default with
    enabled := true
    hotHeapSize := some 65536
    nonMethodSize := 65536
    profiledSize := 128
    nonProfiledSize := 131073 }

/-- Two methods are compiled, then the first one again, for which there is no room left. -/
def crampedUses : List Session.Use :=
  [.sample Engine.secondMethod 1, .sample Engine.firstMethod 1,
    .compile Engine.firstMethod (Engine.filler 3) .profiled,
    .compile Engine.secondMethod (Engine.filler 2) .profiled,
    .compile Engine.firstMethod (Engine.filler 3) .profiled]

theorem run_cramped :
    ∃ s state e, run (session cramped wideHost ⟨0, 0⟩ 0) .empty =
        (.ok s, state) ∧
      (s.after crampedUses).store = .reordered e ∧
      e.placements =
        [⟨Engine.firstMethod, ⟨Engine.firstMethod, .profiled, 0x20000000, 3, 64⟩, none, 1⟩,
          ⟨Engine.secondMethod, ⟨Engine.secondMethod, .profiled, 0x20000040, 2, 64⟩, none, 2⟩] ∧
      (s.after crampedUses).hotness =
        ⟨[⟨Engine.firstMethod, 1, 3⟩, ⟨Engine.secondMethod, 1, 2⟩], 3⟩ ∧
      s.RefusedSince Engine.firstMethod Engine.secondMethod crampedUses := by
  refine ⟨_, _, _, rfl, rfl, rfl, rfl, [_, _], _, _, rfl, ⟨_, _, _, rfl, rfl⟩, ?_⟩
  simp [Session.Use.compiled?]

/-- The older code comes first, as its method was compiled in vain last. -/
theorem settlesTies_cramped :
    cramped.enabled = true ∧
      ∃ s state, run (session cramped wideHost ⟨0, 0⟩ 0) .empty =
          (.ok s, state) ∧
        s.RefusedSince Engine.firstMethod Engine.secondMethod crampedUses ∧
        [Engine.firstMethod, Engine.secondMethod].Sublist
          (s.after crampedUses).hotness.ranking := by
  rcases run_cramped with ⟨s, state, e, ran, store, placements, hotness, refused⟩
  rcases settlesTies_of_run rfl ran crampedUses with ⟨same, sameStore, settled⟩
  cases store.symm.trans sameStore
  rw [placements, List.pairwise_pair] at settled
  have tie := settled.first (by rw [hotness]; rfl) (by rw [hotness]; decide)
  exact ⟨rfl, s, state, ran, refused, tie.2.mpr refused⟩

/-- The newer code does not always come first. -/
theorem not_newer_first :
    ¬ ∀ (o : Options) (host : Host) (files : FileTree) (now : Moment) (elapsed : Nat)
        (s : Session) (state : State) (uses : List Session.Use) (e : Engine),
      o.enabled = true → run (session o host now elapsed) files = (.ok s, state) →
      (s.after uses).store = .reordered e →
      ∀ older ∈ e.placements, ∀ newer ∈ e.placements, older.compiled < newer.compiled →
        (s.after uses).hotness.samplesOf older.method =
          (s.after uses).hotness.samplesOf newer.method →
        (s.after uses).hotness.samplesOf newer.method ≠ 0 →
        [newer.method, older.method].Sublist (s.after uses).hotness.ranking := by
  intro newerFirst
  rcases run_cramped with ⟨s, state, e, ran, store, placements, hotness, _⟩
  have pair := newerFirst _ _ _ _ _ s state crampedUses e rfl ran store
  rw [placements, hotness] at pair
  have ranked := pair _ List.mem_cons_self _ (List.mem_cons_of_mem _ List.mem_cons_self) (by decide)
    rfl (by decide)
  have ranking : Hotness.ranking ⟨[⟨Engine.firstMethod, 1, 3⟩, ⟨Engine.secondMethod, 1, 2⟩], 3⟩ =
      [Engine.firstMethod, Engine.secondMethod] := by
    rw [Hotness.ranking, List.mergeSort_of_pairwise (by decide)]
    rfl
  rw [ranking] at ranked
  exact absurd ranked (by decide)

end Startup

end CodeLayout
