import CodeLayout.Proofs.Engine.Readiness
import CodeLayout.Proofs.Engine.Resolution

/-!
# The discipline of a pass

A moving pass cannot fail.  It relocates code at a safepoint only, and leaves it
when it is done: the epoch grows by one if there was anything to move.  The
table that it leaves behind is complete, carries the number of the pass, and is
empty exactly if no code moved.
-/

namespace CodeLayout

namespace Transit

/-- Steps of which every relocation is made while the safepoint is reached. -/
inductive Guarded (t : Transit) : Transit → Prop
  | refl : Guarded t t
  | relocate {middle : Transit} (steps : Guarded t middle)
      (reached : middle.safepoint.phase = .reached) (m : Method) (order : List Partition)
      (requested : Partition) : Guarded t (middle.relocate m order requested).2
  | giveUp {middle : Transit} (steps : Guarded t middle) (move : Move) (placed : Placement) :
      Guarded t (middle.giveUp move placed)
  | note {middle after : Transit} (steps : Guarded t middle) (same : SameCode middle after) :
      Guarded t after

variable {t after : Transit} {code : Method → Option ByteArray} {m : Method}
  {order : List Partition} {placed : Placement} {b : Blob} {cache : Cache} {passed : List Event}

/-- No step leaves the safepoint. -/
theorem Steps.guarded (steps : Steps t after) (held : t.Held code)
    (reached : t.safepoint.phase = .reached) : Guarded t after := by
  induction steps with
  | refl => exact .refl
  | relocate steps m order requested inductionHypothesis =>
      have safepoint := (steps.held held).2.safepoint
      exact inductionHypothesis.relocate (safepoint ▸ reached) m order requested
  | giveUp _ move placed inductionHypothesis => exact inductionHypothesis.giveUp move placed
  | note _ same inductionHypothesis => exact inductionHypothesis.note same

/-- The table keeps the number of its pass. -/
theorem Steps.generation (steps : Steps t after) (held : t.Held code) :
    after.forwarding.generation = t.forwarding.generation := by
  induction steps with
  | refl => rfl
  | relocate steps m order requested inductionHypothesis =>
      rw [← inductionHypothesis]
      rcases relocate_cases (steps.held held).1 m order requested with
        ⟨_, _, equal, ⟨_, _, _, _⟩⟩ | ⟨placed, b, _, _, equal, _⟩
      · rw [equal]
        rfl
      · rw [equal]
        change (Forwarding.add _ placed.blob.address b.address).generation = _
        rw [Forwarding.add]
        split <;> rfl
  | giveUp _ _ _ inductionHypothesis => exact inductionHypothesis
  | note _ same inductionHypothesis =>
      rw [same.forwarding]
      exact inductionHypothesis

/-- A method is noted as moved exactly if a relocation is reported. -/
def Noted (t : Transit) : Prop :=
  t.moved = [] ↔ t.events.countP Event.isRelocation = 0

/-- A relocation that is reported is noted as well. -/
theorem noted_of_relocated (u : Transit)
    (moved : u.moved = ((t.movedTo placed b cache passed).noteMoved m b.size).moved)
    (events : u.events = (t.movedTo placed b cache passed).events) : u.Noted := by
  have some : u.moved ≠ [] := by
    rw [moved, noteMoved]
    dsimp only
    split
    · rename_i already
      exact List.ne_nil_of_mem (List.contains_iff_mem.mp already)
    · simp
  have reported : u.events.countP Event.isRelocation ≠ 0 := by
    rw [events, movedTo, List.countP_append, List.countP_append]
    simp [Event.isRelocation]
  exact ⟨fun nothing => absurd nothing some, fun nothing => absurd nothing reported⟩

theorem Act.noted {first next : Stage} (act : Act first next) (held : first.transit.Held code)
    (noted : first.transit.Noted) : next.transit.Noted := by
  cases act with
  | arrive _ _ made =>
      rcases relocate_eq_ok held made with ⟨placed, b, cache, passed, rfl, rfl, _⟩
      exact noted_of_relocated _ rfl rfl
  | displace made =>
      rcases relocate_eq_ok held made with ⟨placed, b, cache, passed, rfl, rfl, _⟩
      exact noted_of_relocated _ rfl rfl
  | @park t after m _ _ _ _ made =>
      rcases relocate_eq_ok (t := t.tried m) held made with ⟨placed, b, cache, passed, rfl, rfl, _⟩
      exact noted_of_relocated _ rfl rfl
  | settle found made =>
      rcases attempt_eq_ok held found made with ⟨b, cache, passed, rfl, rfl, _⟩
      exact noted_of_relocated _ rfl rfl
  | @giveUp t after move rest placed fault found isFull noRoom =>
      rcases attempt_eq_error held found noRoom isFull with ⟨passed, rfl, quiet⟩
      rcases Event.countP_quiet quiet with ⟨_, noRelocation⟩
      change t.moved = [] ↔ List.countP _ (t.events ++ passed ++ [_]) = 0
      rw [List.countP_append, List.countP_append, noRelocation]
      exact noted
  | skip | empty | halt | emptied | leave | last | pass | finish | settled => exact noted

theorem Leads.noted {first last : Stage} (leads : Leads first last)
    (held : first.transit.Held code) (noted : first.transit.Noted) : last.transit.Noted := by
  induction leads with
  | refl => exact noted
  | tail before act inductionHypothesis =>
      exact act.noted (Leads.steps before |>.held held).1 inductionHypothesis

end Transit

/-- A table of hops is empty if and only if there are none. -/
theorem Forwarding.Records.entries_eq_nil_iff {t : Forwarding} {hops : List (Nat × Nat)}
    (records : t.Records hops) : t.entries = [] ↔ hops.length = 0 := by
  have keys := records.keys
  constructor
  · intro nothing
    rw [nothing] at keys
    cases hops with
    | nil => rfl
    | cons hop _ => simpa using (keys hop.1).mpr List.mem_cons_self
  · intro nothing
    rw [List.length_eq_zero_iff.mp nothing] at keys
    cases entries : t.entries with
    | nil => rfl
    | cons entry _ =>
        rw [entries] at keys
        simpa using (keys entry.1).mp List.mem_cons_self

namespace Engine

variable {e : Engine} {code : Method → Option ByteArray}

/-- What a pass keeps to.  Its moves lead to a state `t`. -/
structure Disciplined (e : Engine) (ranking : List Method) (report : PassReport) (after : Engine)
    (t : Transit) : Prop where
  /-- No thread is waited for. -/
  arrived : e.safepoint.synchronize? = some e.safepoint.synchronize
  guarded : Transit.Guarded (e.opened ranking) t
  /-- The code is where these moves left it, and all relocations reported are
  theirs. -/
  cache : after.cache = t.cache
  placements : after.placements = t.placements
  events : ∃ before behind, after.events = e.events ++ before ++ t.events ++ behind ∧
    (∀ event ∈ before, event.isQuiet = true) ∧ ∀ event ∈ behind, event.isQuiet = true
  phase : after.safepoint.phase = .none
  epoch : after.safepoint.epoch =
    e.safepoint.epoch + if (e.planFor ranking).moves = [] then 0 else 1
  complete : after.forwarding.complete = true
  generation : after.forwarding.generation = report.pass
  number : report.pass = e.passes + 1
  /-- The table is empty exactly if no code moved. -/
  empty : after.forwarding.entries = [] ↔ t.events.countP Event.isRelocation = 0
  relocated : report.relocated = 0 ↔ t.events.countP Event.isRelocation = 0

/-- Where nobody is registered, all threads have arrived. -/
theorem synchronize_of_nobody {sp : Safepoint} (nobody : sp.registered = 0) :
    sp.synchronize? = some sp.synchronize := by
  have arrived : sp.request.allArrived = true := by
    simp [Safepoint.allArrived, Safepoint.request, nobody]
  rw [Safepoint.synchronize?, Safepoint.wait?, if_pos arrived]
  rfl

theorem Consistent.disciplined (consistent : e.Consistent code) (usable : e.cache.Usable)
    (separate : e.cache.Separate) (moving : e.recording = false) (idle : e.safepoint.phase = .none)
    (nobody : e.safepoint.registered = 0) (files : FileTree) (ranking : List Method)
    (elapsed : Nat) :
    ∃ report t, (e.runPass files ranking elapsed).result = .ok report ∧
      Disciplined e ranking report (e.runPass files ranking elapsed).engine t := by
  rcases (begun_same e ranking).consistent consistent with ⟨begun, _⟩
  have held : (e.opened ranking).Held code := (begun.ranked ranking).held
  rcases consistent.completes usable moving files ranking elapsed with ⟨report, t, completes⟩
  have steps : Transit.Steps (e.opened ranking) t := completes.leads.steps
  rcases steps.tracked held separate rfl rfl with ⟨hops, tracked⟩
  have noted : t.Noted := completes.leads.noted held (iff_of_true rfl rfl)
  refine ⟨report, t, completes.result, ?_⟩
  constructor
  · exact synchronize_of_nobody nobody
  · exact steps.guarded held rfl
  · exact completes.cache
  · exact completes.placements
  · exact completes.events
  · rw [completes.safepoint]
    split
    · exact idle
    · rfl
  · rw [completes.safepoint]
    split <;> rfl
  · rw [completes.forwarding]
    rfl
  · rw [completes.forwarding, completes.isReport]
    exact steps.generation held
  · rw [completes.isReport]
    rfl
  · rw [completes.forwarding, tracked.made]
    exact tracked.records.close.entries_eq_nil_iff
  · rw [completes.isReport]
    exact List.length_eq_zero_iff.trans noted

/-- A moving pass ends well, moves code at a safepoint only, and leaves it. -/
theorem disciplined_runPass (reached : Reached e) (separate : e.cache.Separate)
    (moving : e.recording = false) {sp : Safepoint} (idle : sp.phase = .none)
    (nobody : sp.registered = 0) (files : FileTree) (ranking : List Method) (elapsed : Nat) :
    ∃ report t, ({ e with safepoint := sp }.runPass files ranking elapsed).result = .ok report ∧
      Disciplined { e with safepoint := sp } ranking report
        ({ e with safepoint := sp }.runPass files ranking elapsed).engine t := by
  rcases reached.consistent with ⟨code, consistent⟩
  have meanwhile : Consistent { e with safepoint := sp } code :=
    ⟨consistent.held, consistent.numbered⟩
  exact meanwhile.disciplined reached.ready.1 separate moving idle nobody files ranking elapsed

/-- The exchange on the small machine takes place at its first safepoint. -/
theorem disciplined_small :
    Reached smallEngine ∧ smallEngine.cache.Separate ∧ smallEngine.recording = false ∧
      Safepoint.initial.phase = .none ∧ Safepoint.initial.registered = 0 ∧
      ∃ report t,
        ({ smallEngine with safepoint := Safepoint.initial }.runPass FileTree.empty
          [secondMethod] 0).result = .ok report ∧
        Disciplined { smallEngine with safepoint := Safepoint.initial } [secondMethod] report
          ({ smallEngine with safepoint := Safepoint.initial }.runPass FileTree.empty
            [secondMethod] 0).engine t ∧
        ({ smallEngine with safepoint := Safepoint.initial }.runPass FileTree.empty
          [secondMethod] 0).engine.safepoint.epoch = 1 := by
  have idle : Safepoint.initial.phase = .none := rfl
  obtain ⟨report, t, endsWell, disciplined⟩ := disciplined_runPass reached_small
    separate_smallEngine rfl idle rfl FileTree.empty [secondMethod] 0
  refine ⟨reached_small, separate_smallEngine, rfl, rfl, rfl, report, t, endsWell, disciplined, ?_⟩
  rw [disciplined.epoch]
  decide

end Engine

end CodeLayout
