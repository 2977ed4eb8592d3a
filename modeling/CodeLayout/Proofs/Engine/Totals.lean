import CodeLayout.Proofs.Engine.Listing

/-!
# Totals over the passes

Every call that runs a pass is numbered, and the report of a pass that ends well is
added to the statistics; no other call does either.  So the statistics are the sums over
these reports, as far as words can hold them.
-/

namespace CodeLayout

namespace Statistics

/-- Numbers added to a word wrap around. -/
theorem toNat_foldl_add (numbers : List Nat) (w : UInt64) :
    (numbers.foldl (fun w n => w + UInt64.ofNat n) w).toNat =
      (w.toNat + numbers.sum) % 2 ^ 64 := by
  induction numbers generalizing w with
  | nil => simp [Nat.mod_eq_of_lt w.toNat_lt]
  | cons n rest inductionHypothesis =>
      rw [List.foldl_cons, inductionHypothesis, UInt64.toNat_add, UInt64.toNat_ofNat',
        List.sum_cons, Nat.mod_add_mod, Nat.add_assoc, Nat.add_left_comm, Nat.mod_add_mod]
      congr 1
      omega

/-- A sum that grows with each report by a number of it. -/
theorem toNat_foldl_record (sum : Statistics → UInt64) (part : PassReport → Nat)
    (grows : ∀ s r, sum (record s r) = sum s + UInt64.ofNat (part r)) (s : Statistics)
    (reports : List PassReport) :
    (sum (reports.foldl record s)).toNat = ((sum s).toNat + (reports.map part).sum) % 2 ^ 64 := by
  have folded : sum (reports.foldl record s) =
      (reports.map part).foldl (fun w n => w + UInt64.ofNat n) (sum s) := by
    induction reports generalizing s with
    | nil => rfl
    | cons r rest inductionHypothesis =>
        rw [List.foldl_cons, inductionHypothesis, grows, List.map_cons, List.foldl_cons]
  rw [folded, toNat_foldl_add]

end Statistics

namespace Engine

variable {e : Engine}

/-- The report of a call that runs a pass which ends well. -/
def reportOf? (e : Engine) : Call → Option PassReport
  | .runPass files ranking elapsed => (e.runPass files ranking elapsed).result.toOption
  | .runWith files ranking elapsed => (e.runWith files ranking elapsed).result.toOption
  | .install .. | .unload .. => none

/-- The reports of the passes among some calls that end well. -/
def reports (e : Engine) : List Call → List PassReport
  | [] => []
  | call :: rest => (e.reportOf? call).toList ++ (e.perform call).reports rest

/-- The passes are counted, and the statistics are sums over the reports. -/
structure Totals (passes : Nat) (s : Statistics) (calls : List Call) (reports : List PassReport) :
    Prop where
  runs : passes = calls.countP Call.isPass
  passes : s.passes.toNat = reports.length % 2 ^ 64
  relocations : s.relocations.toNat = (reports.map PassReport.relocated).sum % 2 ^ 64
  evictions : s.evictions.toNat = (reports.map PassReport.evicted).sum % 2 ^ 64
  bytesMoved : s.bytesMoved.toNat = (reports.map PassReport.bytesMoved).sum % 2 ^ 64
  unplaced : s.unplaced.toNat = (reports.map PassReport.unplaced).sum % 2 ^ 64

/-- Some passes are run, and those that end well are recorded. -/
structure Adds (e after : Engine) (passes : Nat) (reports : List PassReport) : Prop where
  passes : after.passes = e.passes + passes
  statistics : after.statistics = reports.foldl Statistics.record e.statistics

theorem Adds.trans {middle after : Engine} {n k : Nat} {earlier later : List PassReport}
    (first : Adds e middle n earlier) (second : Adds middle after k later) :
    Adds e after (n + k) (earlier ++ later) := by
  constructor
  · rw [second.passes, first.passes, Nat.add_assoc]
  · rw [second.statistics, first.statistics, List.foldl_append]

/-! ## Calls -/

/-- Between its start and its end a pass counts nothing. -/
theorem conducted_adds (e : Engine) (files : FileTree) (ranking : List Method)
    (report : PassReport) : Adds e (e.conducted files ranking report).engine 0 [] := by
  unfold conducted
  split
  · unfold recordOrder
    dsimp only
    split
    · exact ⟨rfl, rfl⟩
    · split <;> exact ⟨rfl, rfl⟩
  · rw [reorder_eq]
    split <;> exact ⟨rfl, rfl⟩

theorem runPass_adds (e : Engine) (files : FileTree) (ranking : List Method) (elapsed : Nat) :
    Adds e (e.runPass files ranking elapsed).engine 1
      (e.runPass files ranking elapsed).result.toOption.toList := by
  have conducted := conducted_adds e.counted files ranking (PassReport.start (e.passes + 1))
  rw [runPass_eq_concluded, Outcome.concluded]
  cases ended : (e.conductedNext files ranking).result with
  | error fault =>
      simp only [Outcome.preceded, ended]
      exact ⟨conducted.passes, conducted.statistics⟩
  | ok report =>
      simp only [Outcome.preceded, ended]
      exact ⟨conducted.passes, congrArg (fun s => Statistics.record s _) conducted.statistics⟩

theorem install_adds (e : Engine) (m : Method) (code : ByteArray) (requested : Partition) :
    Adds e (e.install m code requested).2 0 [] := by
  have made := installs e m code requested
  generalize e.install m code requested = result at made ⊢
  cases made <;> exact ⟨rfl, rfl⟩

theorem unload_adds (e : Engine) (m : Method) : Adds e (e.unload m).2 0 [] := by
  unfold unload
  split
  · exact ⟨rfl, rfl⟩
  · dsimp only
    split <;> exact ⟨rfl, rfl⟩

theorem perform_adds (e : Engine) (call : Call) :
    Adds e (e.perform call) ([call].countP Call.isPass) (e.reportOf? call).toList := by
  cases call with
  | install m code requested => exact install_adds e m code requested
  | unload m => exact unload_adds e m
  | runPass files ranking elapsed => exact runPass_adds e files ranking elapsed
  | runWith files ranking elapsed =>
      rw [perform, reportOf?, runWith]
      split
      · split
        · exact runPass_adds e files ranking elapsed
        · have adds := runPass_adds { e with seedUsed := true } files
          exact ⟨(adds _ elapsed).passes, (adds _ elapsed).statistics⟩
      · exact runPass_adds e files ranking elapsed

theorem performAll_adds (e : Engine) (calls : List Call) :
    Adds e (e.performAll calls) (calls.countP Call.isPass) (e.reports calls) := by
  induction calls generalizing e with
  | nil => exact ⟨rfl, rfl⟩
  | cons call rest inductionHypothesis =>
      rw [← List.singleton_append, List.countP_append]
      exact (perform_adds e call).trans (inductionHypothesis (e.perform call))

/-- A new engine has counted nothing. -/
theorem Fresh.unused (fresh : Fresh e) : e.passes = 0 ∧ e.statistics = Statistics.empty := by
  induction fresh with
  | start _ _ _ => exact ⟨rfl, rfl⟩
  | dumpTo _ _ inductionHypothesis => exact inductionHypothesis
  | withSeed _ _ inductionHypothesis => exact inductionHypothesis

theorem Fresh.totals (fresh : Fresh e) (calls : List Call) :
    Totals (e.performAll calls).passes (e.performAll calls).statistics calls (e.reports calls) := by
  have adds := performAll_adds e calls
  rcases fresh.unused with ⟨passes, statistics⟩
  rw [adds.passes, adds.statistics, passes, statistics]
  have total (sum : Statistics → UInt64) (part : PassReport → Nat)
      (grows : ∀ s r, sum (Statistics.record s r) = sum s + UInt64.ofNat (part r))
      (nothing : sum Statistics.empty = 0) :
      (sum ((e.reports calls).foldl Statistics.record Statistics.empty)).toNat =
        ((e.reports calls).map part).sum % 2 ^ 64 := by
    rw [Statistics.toNat_foldl_record sum part grows, nothing]
    simp
  constructor
  · exact Nat.zero_add _
  · have runs := total Statistics.passes (fun _ => 1) (fun _ _ => rfl) rfl
    simpa using runs
  · exact total Statistics.relocations PassReport.relocated (fun _ _ => rfl) rfl
  · exact total Statistics.evictions PassReport.evicted (fun _ _ => rfl) rfl
  · exact total Statistics.bytesMoved PassReport.bytesMoved (fun _ _ => rfl) rfl
  · exact total Statistics.unplaced PassReport.unplaced (fun _ _ => rfl) rfl

end Engine

end CodeLayout
