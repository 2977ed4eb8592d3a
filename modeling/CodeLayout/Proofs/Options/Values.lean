import CodeLayout.Options.Record
import CodeLayout.Options.Setting

/-!
# Options by name

The record of the options read as a function of their names.  A setting changes the value
of the option it is for and of no other one, and options that have the same values are the
same, but for the switch that has no name.
-/

namespace CodeLayout

namespace Options

/-! ## Entries -/

/-- Where the value of one name is exchanged, the other ones stay. -/
theorem lookup_exchange (name key : String) (written : Document)
    (entries : List (String × Document)) :
    (entries.map fun entry => if entry.1 = key then (entry.1, written) else entry).lookup name =
      if name = key then (entries.lookup name).map fun _ => written else entries.lookup name := by
  induction entries with
  | nil => simp
  | cons entry rest inductionHypothesis =>
      rcases entry with ⟨first, old⟩
      rw [List.map_cons]
      by_cases found : name = first
      · subst found
        by_cases exchanged : name = key <;> simp [exchanged]
      · have passed : (name == first) = false := beq_eq_false_iff_ne.mpr found
        have kept : (if first = key then (first, written) else (first, old)).1 = first := by
          split <;> rfl
        rw [List.lookup_cons, List.lookup_cons, kept, passed]
        exact inductionHypothesis

theorem lookup_of_unnamed {name : String} {entries : List (String × Document)}
    (unnamed : name ∉ entries.map Prod.fst) : entries.lookup name = none := by
  refine List.lookup_eq_none_iff.mpr fun entry member => bne_iff_ne.mpr fun named => ?_
  exact unnamed (named ▸ List.mem_map_of_mem member)

/-- Entries under the same distinct names are the same if their values are. -/
theorem entries_ext {entries others : List (String × Document)}
    (names : entries.map Prod.fst = others.map Prod.fst) (distinct : (entries.map Prod.fst).Nodup)
    (same : ∀ name, entries.lookup name = others.lookup name) : entries = others := by
  induction entries generalizing others with
  | nil => exact (List.map_eq_nil_iff.mp names.symm).symm
  | cons entry rest inductionHypothesis =>
      rcases List.map_eq_cons_iff.mp names.symm with ⟨other, later, rfl, isFirst, laterNames⟩
      rcases entry with ⟨first, value⟩
      rcases other with ⟨_, otherValue⟩
      cases isFirst
      rw [List.map_cons, List.nodup_cons] at distinct
      have head : value = otherValue := by simpa using same first
      have tail : rest = later := by
        refine inductionHypothesis laterNames.symm distinct.2 fun name => ?_
        by_cases named : name = first
        · subst named
          rw [lookup_of_unnamed distinct.1, lookup_of_unnamed (laterNames ▸ distinct.1)]
        · simpa [List.lookup_cons, beq_eq_false_iff_ne.mpr named] using same name
      rw [head, tail]

/-! ## Values -/

variable {o other : Options}

/-- The value of the option of a name, if there is one. -/
def value? (o : Options) (name : String) : Option Document :=
  o.toEntries.lookup name

/-- The names of all options that have one. -/
theorem names_toEntries (o : Options) : o.toEntries.map Prod.fst = fields.map Prod.fst :=
  rfl

/-- What is written for an optional value says what it is. -/
theorem optional_inj {α : Type} {write : α → Document} (inj : ∀ a b, write a = write b → a = b)
    (written : ∀ a, write a ≠ .null) {v w : Option α}
    (same : (v.map write).getD .null = (w.map write).getD .null) : v = w := by
  cases v with
  | none =>
      cases w with
      | none => rfl
      | some b => exact absurd same.symm (written b)
  | some a =>
      cases w with
      | none => exact absurd same (written a)
      | some b => exact congrArg some (inj a b same)

/-- Options with the same values are the same, apart from the switch without a name. -/
theorem ext_of_value? (same : ∀ name, o.value? name = other.value? name)
    (interpreterOnly : o.interpreterOnly = other.interpreterOnly) : o = other := by
  have entries : o.toEntries = other.toEntries :=
    entries_ext rfl (by rw [names_toEntries]; decide) same
  have flag (a b : Bool) (written : Document.flag a = .flag b) : a = b := by injection written
  have text (a b : String) (written : Document.text a = .text b) : a = b := by injection written
  have size (a b : UInt64) (written : Document.integer a.toNat = .integer b.toNat) : a = b := by
    injection written with number
    exact UInt64.toNat_inj.mp (Int.ofNat.inj number)
  have tier (a b : UInt8) (written : Document.integer a.toNat = .integer b.toNat) : a = b := by
    injection written with number
    exact UInt8.toNat_inj.mp (Int.ofNat.inj number)
  simp only [toEntries, List.cons.injEq, Prod.mk.injEq, true_and, and_true] at entries
  obtain ⟨enabled, dumpMode, loadMode, orderFile, hotHeapSize, rescheduling, segmented, tiered,
    stopAtLevel, nonMethodSize, profiledSize, nonProfiledSize, reservedSize, unlockExperimental⟩ :=
    entries
  cases o
  cases other
  simp only [mk.injEq]
  exact ⟨flag _ _ enabled, optional_inj flag (by simp) dumpMode,
    optional_inj flag (by simp) loadMode,
    optional_inj text (by simp) orderFile, optional_inj size (by simp) hotHeapSize,
    optional_inj text (by simp) rescheduling, flag _ _ segmented, flag _ _ tiered,
    tier _ _ stopAtLevel, interpreterOnly, size _ _ nonMethodSize, size _ _ profiledSize,
    size _ _ nonProfiledSize, size _ _ reservedSize, flag _ _ unlockExperimental⟩

end Options

namespace Setting

/-- The value that a setting gives to its option. -/
def value : Setting → Document
  | flag _ on => .flag on
  | size _ bytes => .integer bytes.toNat
  | stopAtLevel level => .integer level.toNat
  | orderFile path => .text path
  | rescheduling times => .text times

theorem toEntries_apply (setting : Setting) (o : Options) :
    (setting.apply o).toEntries =
      o.toEntries.map fun entry =>
        if entry.1 = setting.option then (entry.1, setting.value) else entry := by
  cases setting with
  | flag f on => cases f <;> simp [apply, Options.toEntries, option, value, Flag.name]
  | size s bytes => cases s <;> simp [apply, Options.toEntries, option, value, SizeOption.name]
  | stopAtLevel level => simp [apply, Options.toEntries, option, value]
  | orderFile path => simp [apply, Options.toEntries, option, value]
  | rescheduling times => simp [apply, Options.toEntries, option, value]

theorem exists_value? (setting : Setting) (o : Options) :
    ∃ old, o.value? setting.option = some old := by
  cases setting with
  | flag f on => cases f <;> exact ⟨_, rfl⟩
  | size s bytes => cases s <;> exact ⟨_, rfl⟩
  | stopAtLevel level => exact ⟨_, rfl⟩
  | orderFile path => exact ⟨_, rfl⟩
  | rescheduling times => exact ⟨_, rfl⟩

/-- A setting gives its value to its option, and leaves the others as they are. -/
theorem value?_apply (setting : Setting) (o : Options) (name : String) :
    (setting.apply o).value? name =
      if name = setting.option then some setting.value else o.value? name := by
  rw [Options.value?, toEntries_apply, Options.lookup_exchange]
  split
  · rename_i named
    rcases setting.exists_value? o with ⟨old, given⟩
    rw [named, ← Options.value?, given]
    rfl
  · rfl

@[simp]
theorem interpreterOnly_apply (setting : Setting) (o : Options) :
    (setting.apply o).interpreterOnly = o.interpreterOnly := by
  cases setting with
  | flag f on => cases f <;> rfl
  | size s bytes => cases s <;> rfl
  | stopAtLevel level => rfl
  | orderFile path => rfl
  | rescheduling times => rfl

end Setting

end CodeLayout
