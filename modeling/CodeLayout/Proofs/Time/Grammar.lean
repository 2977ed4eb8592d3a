import CodeLayout.Proofs.Text.Digits
import CodeLayout.Proofs.Text.Fields
import CodeLayout.Proofs.Time.Earliest

/-!
# The grammar of trigger texts

A text of times is accepted exactly if each of its tokens displays a time.  What is kept
are the earliest times; what is reported are the repeats, in the order of the text, then
an excess of times, and then each time that is kept.  A text that is refused is refused
for its leftmost token that displays no time, after the reports of the repeats before it.
-/

namespace CodeLayout

namespace TimeOfDay

variable {token : String} {t : TimeOfDay} {hour minute : Nat}

theorem toList_display (t : TimeOfDay) :
    t.display.toList =
      (Digits.padded 2 t.hour).toList ++ ':' :: (Digits.padded 2 t.minute).toList := by
  simp [display]

theorem ofNats?_eq_some_iff :
    ofNats? hour minute = some t ↔ t.hour.val = hour ∧ t.minute.val = minute := by
  constructor
  · intro isTime
    rw [ofNats?] at isTime
    split at isTime
    · split at isTime
      · cases isTime
        exact ⟨rfl, rfl⟩
      · contradiction
    · contradiction
  · rintro ⟨rfl, rfl⟩
    rw [ofNats?, dif_pos t.hour.isLt, dif_pos t.minute.isLt]

/-- A time is read from the text that displays it, and from no other. -/
theorem parse?_eq_some_iff : parse? token = some t ↔ token = t.display := by
  have hour : t.hour.val < 100 := by omega
  have minute : t.minute.val < 100 := by omega
  constructor
  · intro read
    rw [parse?] at read
    split at read
    · rename_i h1 h2 m1 m2 chars
      rcases Option.bind_eq_some_iff.mp read with ⟨hours, isHour, more⟩
      rcases Option.bind_eq_some_iff.mp more with ⟨minutes, isMinute, isTime⟩
      rcases ofNats?_eq_some_iff.mp isTime with ⟨rfl, rfl⟩
      apply String.toList_inj.mp
      rw [chars, toList_display, (Digits.parse?_pair_eq_some_iff.mp isHour).2,
        (Digits.parse?_pair_eq_some_iff.mp isMinute).2]
      rfl
    · contradiction
  · rintro rfl
    have hours := Digits.parse?_pair_eq_some_iff.mpr ⟨hour, Digits.toList_padded_two hour⟩
    have minutes := Digits.parse?_pair_eq_some_iff.mpr ⟨minute, Digits.toList_padded_two minute⟩
    rw [parse?, toList_display, Digits.toList_padded_two hour, Digits.toList_padded_two minute]
    simp only [List.cons_append, List.nil_append, hours, minutes, Option.bind_some]
    exact ofNats?_eq_some_iff.mpr ⟨rfl, rfl⟩

theorem display_injective : Function.Injective display := by
  intro t u same
  exact Option.some.inj ((parse?_eq_some_iff.mpr rfl).symm.trans (parse?_eq_some_iff.mpr same))

@[simp]
theorem parse_display (t : TimeOfDay) : parse t.display = .ok t := by
  rw [parse, parse?_eq_some_iff.mpr rfl]

theorem parse_of_senseless (senseless : ∀ t, token ≠ display t) :
    parse token = .error (.invalidTime token) := by
  have unread : parse? token = none :=
    Option.eq_none_iff_forall_ne_some.mpr fun t read => senseless t (parse?_eq_some_iff.mp read)
  rw [parse, unread]

end TimeOfDay

namespace TriggerSet

variable {text : String} {times : List TimeOfDay}
  {outcome : Except ConfigError TriggerSet × List Event}

/-! ## What a text says -/

/-- The tokens of a text: all that stands between its commas, without an empty last one
that is not alone. -/
def listed (text : String) : List String :=
  let fields := (text.toList.splitOn ',').map String.ofList
  if 1 < fields.length ∧ fields.getLast? = some "" then fields.dropLast else fields

/-- A text that is neither empty nor too long is read. -/
structure Admissible (text : String) : Prop where
  filled : text ≠ ""
  short : text.utf8ByteSize ≤ 1024

/-- What comes of a text, with what is reported on the way. -/
inductive Reads (text : String) : Except ConfigError TriggerSet × List Event → Prop
  | empty (empty : text = "") : Reads text (.error .scheduleEmpty, [])
  | long (long : 1024 < text.utf8ByteSize) : Reads text (.error .scheduleTooLong, [])
  | senseless {before : List TimeOfDay} {token : String} {behind : List String}
      (admissible : Admissible text)
      (split : listed text = before.map TimeOfDay.display ++ token :: behind)
      (senseless : ∀ t, token ≠ TimeOfDay.display t) :
      Reads text (.error (.invalidTime token), (Distinct.repeats before).map .duplicatedTime)
  | times {times : List TimeOfDay} {set : TriggerSet} (admissible : Admissible text)
      (told : listed text = times.map TimeOfDay.display) (isEarliest : IsEarliest times set)
      (filled : set.times ≠ []) :
      Reads text (.ok set,
        (Distinct.repeats times).map .duplicatedTime ++
          (if 10 < times.toFinset.card then [.tooManyTriggers] else []) ++
          set.times.map .triggerSet)

/-- Tokens display times up to the first one that does not. -/
theorem exists_told (tokens : List String) :
    (∃ times : List TimeOfDay, tokens = times.map TimeOfDay.display) ∨
      ∃ (before : List TimeOfDay) (token : String) (behind : List String),
        tokens = before.map TimeOfDay.display ++ token :: behind ∧
          ∀ t, token ≠ TimeOfDay.display t := by
  induction tokens with
  | nil => exact Or.inl ⟨[], rfl⟩
  | cons first rest inductionHypothesis =>
      by_cases sensible : ∃ t : TimeOfDay, first = t.display
      · rcases sensible with ⟨t, rfl⟩
        rcases inductionHypothesis with ⟨times, rfl⟩ | ⟨before, token, behind, rfl, senseless⟩
        · exact Or.inl ⟨t :: times, rfl⟩
        · exact Or.inr ⟨t :: before, token, behind, rfl, senseless⟩
      · exact Or.inr ⟨[], first, rest, rfl, fun t same => sensible ⟨t, same⟩⟩

theorem listed_ne_nil (text : String) : listed text ≠ [] := by
  rw [listed]
  have fields : ((text.toList.splitOn ',').map String.ofList).length ≠ 0 := by
    rw [← Fields.split_eq_splitOn]
    simpa using Fields.split_ne_nil ',' text.toList
  generalize (text.toList.splitOn ',').map String.ofList = all at fields
  split
  · rename_i several
    intro none
    have count : all.dropLast.length = 0 := by rw [none, List.length_nil]
    rw [List.length_dropLast] at count
    omega
  · exact fun none => fields (congrArg List.length none)

/-! ## What reading does -/

theorem tokens_eq_listed (text : String) : tokens text = listed text := by
  rw [tokens, listed, Fields.ofText, Fields.split_eq_splitOn]
  generalize (text.toList.splitOn ',').map String.ofList = fields
  rcases List.eq_nil_or_concat fields with rfl | ⟨before, last, rfl⟩
  · rfl
  · rcases List.eq_nil_or_concat before with rfl | ⟨earlier, other, rfl⟩
    · simp
    · by_cases bare : last = ""
      · simp [bare]
      · simp [bare]

theorem checkLength_of_admissible (admissible : Admissible text) : checkLength text = .ok () := by
  have filled : text.isEmpty = false := String.isEmpty_eq_false_iff.mpr admissible.filled
  have short : ¬ longestText < text.utf8ByteSize := Nat.not_lt.mpr admissible.short
  simp [checkLength, filled, short]

theorem checkLength_of_long (long : 1024 < text.utf8ByteSize) :
    checkLength text = .error .scheduleTooLong := by
  have filled : text.isEmpty = false := by
    rw [String.isEmpty_eq_false_iff]
    rintro rfl
    contradiction
  have isLong : longestText < text.utf8ByteSize := long
  simp [checkLength, filled, isLong]

/-- Reading tokens that display times keeps the first occurrence of each time and reports
the others.  The times in `before` are those that were read already. -/
theorem readTokens_display (before times : List TimeOfDay) (rest : List String) :
    ∃ repeated, Distinct.repeats (before ++ times) = Distinct.repeats before ++ repeated ∧
      readTokens before.eraseDups (times.map TimeOfDay.display ++ rest) =
        ((readTokens (before ++ times).eraseDups rest).1,
          repeated.map .duplicatedTime ++ (readTokens (before ++ times).eraseDups rest).2) := by
  induction times generalizing before with
  | nil => exact ⟨[], by simp⟩
  | cons t times inductionHypothesis =>
      rcases inductionHypothesis (before ++ [t]) with ⟨repeated, repeats, read⟩
      rw [List.append_assoc, List.singleton_append] at repeats read
      rw [List.map_cons, List.cons_append, readTokens, TimeOfDay.parse_display]
      dsimp only
      by_cases old : t ∈ before
      · have seen : before.eraseDups.contains t = true := by simpa using old
        rw [Distinct.repeats_concat, if_pos old] at repeats
        rw [Distinct.eraseDups_concat_of_mem old] at read
        rw [if_pos seen, read]
        exact ⟨t :: repeated, by rw [repeats, List.append_assoc, List.singleton_append], rfl⟩
      · have unseen : ¬ before.eraseDups.contains t = true := by simpa using old
        rw [Distinct.repeats_concat, if_neg old, List.append_nil] at repeats
        rw [Distinct.eraseDups_concat_of_not_mem old] at read
        rw [if_neg unseen, read]
        exact ⟨repeated, repeats, rfl⟩

theorem readTokens_times (times : List TimeOfDay) :
    readTokens [] (times.map TimeOfDay.display) =
      (.ok times.eraseDups, (Distinct.repeats times).map .duplicatedTime) := by
  rcases readTokens_display [] times [] with ⟨repeated, repeats, read⟩
  rw [List.nil_append, Distinct.repeats_nil, List.nil_append] at repeats
  rw [List.append_nil, List.nil_append, ← repeats] at read
  simpa [readTokens] using read

theorem readTokens_senseless (before : List TimeOfDay) {token : String} (behind : List String)
    (senseless : ∀ t, token ≠ TimeOfDay.display t) :
    readTokens [] (before.map TimeOfDay.display ++ token :: behind) =
      (.error (.invalidTime token), (Distinct.repeats before).map .duplicatedTime) := by
  rcases readTokens_display [] before (token :: behind) with ⟨repeated, repeats, read⟩
  rw [List.nil_append, Distinct.repeats_nil, List.nil_append] at repeats
  rw [List.nil_append, ← repeats] at read
  simpa [readTokens, TimeOfDay.parse_of_senseless senseless] using read

theorem length_eraseDups (times : List TimeOfDay) :
    times.eraseDups.length = times.toFinset.card := by
  have same : times.eraseDups.toFinset = times.toFinset := by
    ext t
    simp
  rw [← same, List.toFinset_card_of_nodup (Distinct.nodup_eraseDups times)]

/-! ## Reading follows the grammar -/

/-- The outcome that the grammar allows is the one of reading. -/
theorem Reads.parse_eq (reads : Reads text outcome) : parse text = outcome := by
  cases reads with
  | empty empty =>
      rw [empty]
      rfl
  | long long => rw [parse, checkLength_of_long long]
  | senseless admissible split senseless =>
      rw [parse, checkLength_of_admissible admissible, tokens_eq_listed, split,
        readTokens_senseless _ _ senseless]
  | @times times set admissible told isEarliest filled =>
      have distinct : IsEarliest times (earliest times.eraseDups) :=
        (isEarliest_earliest (Distinct.nodup_eraseDups times)).congr fun _ => List.mem_eraseDups
      rw [parse, checkLength_of_admissible admissible, tokens_eq_listed, told, readTokens_times,
        isEarliest.unique distinct, ← length_eraseDups]
      rfl

/-- The grammar allows an outcome of every text. -/
theorem exists_reads (text : String) : ∃ outcome, Reads text outcome := by
  by_cases empty : text = ""
  · exact ⟨_, .empty empty⟩
  by_cases long : 1024 < text.utf8ByteSize
  · exact ⟨_, .long long⟩
  have admissible : Admissible text := ⟨empty, Nat.not_lt.mp long⟩
  rcases exists_told (listed text) with ⟨times, told⟩ | ⟨before, token, behind, split, senseless⟩
  · have given : times ≠ [] := by
      rintro rfl
      exact listed_ne_nil text told
    have isEarliest := isEarliest_ofTimes times
    exact ⟨_, .times admissible told isEarliest (isEarliest.filled given)⟩
  · exact ⟨_, .senseless admissible split senseless⟩

/-- Reading a text gives what the grammar allows, and nothing else.  It succeeds exactly if
the text is neither empty nor too long and each of its tokens displays a time. -/
theorem parse_eq_iff_reads (text : String) :
    (∀ outcome, parse text = outcome ↔ Reads text outcome) ∧
      ((∃ set, (parse text).1 = .ok set) ↔
        Admissible text ∧ ∀ token ∈ listed text, ∃ t : TimeOfDay, token = t.display) := by
  rcases exists_reads text with ⟨allowed, reads⟩
  refine ⟨fun outcome => ⟨?_, Reads.parse_eq⟩, ?_⟩
  · rintro rfl
    rw [reads.parse_eq]
    exact reads
  · rw [reads.parse_eq]
    cases reads with
    | empty empty =>
        have refused : ¬ Admissible text := fun admissible => admissible.filled empty
        simp [refused]
    | long long =>
        have refused : ¬ Admissible text := fun admissible => Nat.not_lt.mpr admissible.short long
        simp [refused]
    | senseless admissible split senseless =>
        simp only [reduceCtorEq, exists_const, false_iff, not_and, not_forall]
        intro _
        exact ⟨_, split ▸ by simp, fun ⟨t, same⟩ => senseless t same⟩
    | times admissible told isEarliest filled =>
        simp only [Except.ok.injEq, exists_eq', true_iff]
        refine ⟨admissible, fun token member => ?_⟩
        rw [told] at member
        rcases List.mem_map.mp member with ⟨t, _, rfl⟩
        exact ⟨t, rfl⟩

end TriggerSet

end CodeLayout
