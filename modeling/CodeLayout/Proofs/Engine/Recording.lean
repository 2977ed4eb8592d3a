import CodeLayout.Proofs.Distinct
import CodeLayout.Proofs.Engine.Consistency
import CodeLayout.Proofs.FileTree.Writing
import CodeLayout.Proofs.Order.Printing

/-!
# Recording passes

A recording pass moves no code.  The order that it writes has the installed methods
of the ranking, and it is read back from the file as the order of the last pass.  A
pass that cannot write spends its number and does nothing else.
-/

namespace CodeLayout

namespace Order

variable {methods : List (Method × Nat)} {entry : Method × Nat}

theorem ofMethods_concat (methods : List (Method × Nat)) (entry : Method × Nat) :
    ofMethods (methods ++ [entry]) =
      ((ofMethods methods).push? entry.1 entry.2).getD (ofMethods methods) := by
  rw [ofMethods, List.foldl_append]
  rfl

/-- Of repeated methods the first one is listed. -/
theorem ranking_ofMethods (methods : List (Method × Nat)) :
    (ofMethods methods).ranking = (methods.map Prod.fst).eraseDups := by
  induction methods using List.reverseRecOn with
  | nil => rfl
  | append_singleton before entry inductionHypothesis =>
      rw [ofMethods_concat, List.map_append, List.map_singleton]
      have listed : entry.1 ∈ (ofMethods before).ranking ↔ entry.1 ∈ before.map Prod.fst := by
        rw [inductionHypothesis, List.mem_eraseDups]
      by_cases old : entry.1 ∈ before.map Prod.fst
      · have refused : (ofMethods before).push? entry.1 entry.2 = none := by
          simp [push?, contains, listed.mpr old]
        rw [refused, Distinct.eraseDups_concat_of_mem old]
        exact inductionHypothesis
      · have pushed := push?_of_new (fun isListed => old (listed.mp isListed)) entry.2
        rw [pushed, Distinct.eraseDups_concat_of_not_mem old, ← inductionHypothesis,
          Option.getD_some, ranking, methods_push pushed, List.map_append]
        rfl

/-- An order of some methods lists none but these. -/
theorem mem_of_mem_ofMethods (member : entry ∈ (ofMethods methods).methods) : entry ∈ methods := by
  induction methods using List.reverseRecOn with
  | nil => contradiction
  | append_singleton before last inductionHypothesis =>
      rw [ofMethods_concat] at member
      cases pushed : (ofMethods before).push? last.1 last.2 with
      | none =>
          rw [pushed] at member
          exact List.mem_append_left _ (inductionHypothesis member)
      | some extended =>
          rw [pushed, Option.getD_some, methods_push pushed] at member
          rcases List.mem_append.mp member with old | new
          · exact List.mem_append_left _ (inductionHypothesis old)
          · exact List.mem_append_right _ new

end Order

namespace Engine

variable {e : Engine} {files written : FileTree} {ranking : List Method} {path : String}
  {elapsed size : Nat} {m : Method} {code : Method → Option ByteArray}

/-- The code that is installed for a method. -/
def codeOf? (e : Engine) (m : Method) : Option ByteArray :=
  (e.placements.find? m).bind fun placed => e.cache.code? placed.blob

/-- The order has the installed methods of a ranking, in its order and without repeats,
with the lengths of their code. -/
structure Ranks (e : Engine) (ranking : List Method) (order : Order) : Prop where
  ranking : order.ranking = (ranking.filter e.placements.contains).eraseDups
  sizes : ∀ entry ∈ order.methods, ∃ code, e.codeOf? entry.1 = some code ∧ entry.2 = code.size

/-- The engines agree on the code, on where it is and was, and on who runs it. -/
structure Unmoved (e after : Engine) : Prop where
  cache : after.cache = e.cache
  placements : after.placements = e.placements
  safepoint : after.safepoint = e.safepoint
  forwarding : after.forwarding = e.forwarding

/-- The pass has written its order down, from where it can be loaded. -/
structure Dumps (e : Engine) (ranking : List Method) (path : String) (written : FileTree)
    (outcome : Outcome PassReport) : Prop where
  files : outcome.files = written
  result : ∃ report, outcome.result = .ok report ∧ report.dumped = some path
  order : ∃ order text, outcome.engine.lastOrder = some order ∧ Ranks e ranking order ∧
    written.readText path = .ok text ∧ Order.parse text.toList = .ok order

/-- The pass has failed, and all that is left of it is its number and that it was begun. -/
structure Fails (e : Engine) (files : FileTree) (ranking : List Method) (cause : FileError)
    (outcome : Outcome PassReport) : Prop where
  files : outcome.files = files
  result : outcome.result = .error (.file cause)
  engine : outcome.engine =
    { e with
      passes := e.passes + 1
      events := e.events ++ [.passStart (e.passes + 1) ranking.length] }

/-! ## The order of a ranking -/

theorem ranking_orderOf (ranking : List Method) (ps : Placements) :
    (orderOf ranking ps).ranking = (ranking.filter ps.contains).eraseDups := by
  rw [orderOf, Order.ranking_ofMethods]
  congr 1
  induction ranking with
  | nil => rfl
  | cons m rest inductionHypothesis =>
      cases found : ps.find? m with
      | none =>
          rw [List.filterMap_cons_none (by rw [found]; rfl),
            List.filter_cons_of_neg (by simp [Placements.contains, found])]
          exact inductionHypothesis
      | some placed =>
          rw [List.filterMap_cons_some (by rw [found]; rfl),
            List.filter_cons_of_pos (by simp [Placements.contains, found]), List.map_cons]
          exact congrArg (m :: ·) inductionHypothesis

/-- Who is listed is installed. -/
theorem exists_placed (member : (m, size) ∈ (orderOf ranking e.placements).methods) :
    ∃ placed ∈ e.placements, e.placements.find? m = some placed ∧ placed.method = m ∧
      placed.blob.size = size := by
  rcases List.mem_filterMap.mp (Order.mem_of_mem_ofMethods member) with ⟨n, _, found⟩
  rcases Option.map_eq_some_iff.mp found with ⟨placed, isPlaced, equal⟩
  cases equal
  rcases Placements.mem_of_find? isPlaced with ⟨isPlacement, sameMethod⟩
  exact ⟨placed, isPlacement, isPlaced, sameMethod, rfl⟩

namespace Consistent

theorem ranks_orderOf (consistent : e.Consistent code) (ranking : List Method) :
    Ranks e ranking (orderOf ranking e.placements) where
  ranking := ranking_orderOf ranking e.placements
  sizes := by
    rintro ⟨m, size⟩ member
    rcases exists_placed member with ⟨placed, isPlacement, found, _, rfl⟩
    have valid := consistent.held.stores.valid
    have live := consistent.held.live isPlacement
    rcases valid.exists_code live with ⟨bytes, isCode⟩
    refine ⟨bytes, ?_, (valid.code?_size live isCode).symm⟩
    rw [codeOf?, found]
    exact isCode

/-- Code that is installed is shorter than the longest one that can be listed. -/
theorem wellFormed_orderOf (consistent : e.Consistent code) (ranking : List Method) :
    (orderOf ranking e.placements).WellFormed where
  distinct := Order.nodup_ofMethods _
  sizes := by
    rintro ⟨m, size⟩ member
    rcases exists_placed member with ⟨placed, isPlacement, _, _, rfl⟩
    have valid := consistent.held.stores.valid
    rcases valid.exists_heap (consistent.held.live isPlacement) with ⟨h, _, isHeap, inHeap⟩
    exact (valid.heaps h isHeap).size_le inHeap

end Consistent

/-! ## The pass -/

theorem runPass_of_dumpPath (recording : e.recording = true) (dumps : e.dumpPath = some path)
    (files : FileTree) (ranking : List Method) (elapsed : Nat) :
    e.runPass files ranking elapsed =
      match files.writeText path (String.ofList (orderOf ranking e.placements).render) with
      | .error cause => ⟨.error (.file cause), e.begun ranking, files⟩
      | .ok written =>
        let order := orderOf ranking e.placements
        let report : PassReport :=
          { PassReport.start (e.passes + 1) with
            ranked := order.size
            dumped := some path
            elapsed }
        ⟨.ok report,
          { (e.begun ranking).report [.orderDumped path order.size] with
            lastOrder := some order }.finishPass report, written⟩ := by
  have stillDumps : (e.begun ranking).dumpPath = some path := dumps
  have samePlacements : (e.begun ranking).placements = e.placements := rfl
  rw [runPass_eq_of_recording recording, recordOrder, stillDumps, samePlacements]
  dsimp only
  cases files.writeText path (String.ofList (orderOf ranking e.placements).render) <;> rfl

/-- A recording pass moves no code.  If its order can be written, it is read back from the
file as the order of the last pass; it has the installed methods of the ranking.  If not, the
pass fails and spends its number. -/
theorem recorded_runPass (reached : Reached e) (recording : e.recording = true)
    (dumps : e.dumpPath = some path) (legible : ∀ p ∈ e.placements, p.method.Legible)
    (files : FileTree) (ranking : List Method) (elapsed : Nat) :
    Unmoved e (e.runPass files ranking elapsed).engine ∧
      match files.writeText path (String.ofList (orderOf ranking e.placements).render) with
      | .ok written => Dumps e ranking path written (e.runPass files ranking elapsed)
      | .error cause => Fails e files ranking cause (e.runPass files ranking elapsed) := by
  rcases reached.consistent with ⟨code, consistent⟩
  rw [runPass_of_dumpPath recording dumps]
  cases wrote : files.writeText path (String.ofList (orderOf ranking e.placements).render) with
  | error cause => exact ⟨⟨rfl, rfl, rfl, rfl⟩, ⟨rfl, rfl, rfl⟩⟩
  | ok written =>
      refine ⟨⟨rfl, rfl, rfl, rfl⟩, rfl, ⟨_, rfl, rfl⟩, _, _, rfl,
        consistent.ranks_orderOf ranking, FileTree.readText_of_writeText wrote, ?_⟩
      rw [String.toList_ofList]
      apply Order.parse_render (consistent.wellFormed_orderOf ranking)
      rintro ⟨m, size⟩ member
      rcases exists_placed member with ⟨placed, isPlacement, _, rfl, _⟩
      exact legible placed isPlacement

/-- A small machine that records, with two methods. -/
def recordingEngine (path : String) : Engine :=
  { Engine.start true smallCache with dumpPath := some path }.performAll
    [.install firstMethod ⟨#[1, 2, 3]⟩ .nonProfiled short_first,
      .install secondMethod ⟨#[4, 5]⟩ .nonProfiled short_second]

theorem reached_recording (path : String) : Reached (recordingEngine path) :=
  ⟨_, _, .dumpTo (fresh_small true) (some path), rfl⟩

theorem recordingEngine_placements (path : String) :
    (recordingEngine path).placements =
      [⟨firstMethod, ⟨firstMethod, .nonProfiled, 0x1000000, 3, 64⟩, none, 1⟩,
        ⟨secondMethod, ⟨secondMethod, .nonProfiled, 0x1000040, 2, 64⟩, none, 2⟩] :=
  rfl

theorem legible_recording (path : String) :
    ∀ p ∈ (recordingEngine path).placements, p.method.Legible := by
  rw [recordingEngine_placements]
  intro p isPlacement
  rcases List.mem_cons.mp isPlacement with rfl | last
  · constructor <;> decide
  · rw [List.mem_singleton.mp last]
    constructor <;> decide

/-- A ranking with a method that is not installed and a repeated one. -/
def looseRanking : List Method :=
  [secondMethod, ⟨"Main", "third", "()V"⟩, firstMethod, secondMethod]

theorem render_looseRanking (path : String) :
    String.ofList (orderOf looseRanking (recordingEngine path).placements).render =
      "M 2 Main second ()V\nM 3 Main first ()V\n" := by
  rw [recordingEngine_placements]
  cbv

/-- Recording a loose ranking writes it with its two methods; where the directory is missing,
nothing is written. -/
theorem recorded_small :
    Unmoved (recordingEngine "app.order")
        ((recordingEngine "app.order").runPass FileTree.empty looseRanking 0).engine ∧
      Dumps (recordingEngine "app.order") looseRanking "app.order"
        ⟨[(["app.order"], .file "M 2 Main second ()V\nM 3 Main first ()V\n".toUTF8)]⟩
        ((recordingEngine "app.order").runPass FileTree.empty looseRanking 0) ∧
      Fails (recordingEngine "old/app.order") FileTree.empty looseRanking .notFound
        ((recordingEngine "old/app.order").runPass FileTree.empty looseRanking 0) := by
  obtain ⟨unmoved, writes⟩ := recorded_runPass (reached_recording "app.order") rfl rfl
    (legible_recording "app.order") FileTree.empty looseRanking 0
  obtain ⟨_, fails⟩ := recorded_runPass (reached_recording "old/app.order") rfl rfl
    (legible_recording "old/app.order") FileTree.empty looseRanking 0
  rw [render_looseRanking] at writes fails
  exact ⟨unmoved, writes, fails⟩

end Engine

end CodeLayout
