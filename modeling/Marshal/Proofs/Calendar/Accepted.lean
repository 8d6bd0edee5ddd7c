import Marshal.Proofs.Calendar.Spelling
import Marshal.Proofs.Text.Case

/-!
The texts that are read as lengths of time at all. They are the spellings, but that the digits of
the seconds may be missing before the point, as they may after it. Which of the characters of a
number stand past the ninth place of a fraction is left open here: the reader does not look there.
-/

namespace Marshal

namespace Duration

/-! ### Looser spellings -/

/-- A number of seconds with a point or a comma. Digits may be missing on either side of it, and
nothing but digits stands in the nine places after it. -/
structure Pointed where
  whole : List Char
  comma : Bool
  places : List Char
  beyond : List Char
  whole_isDigit : ∀ c ∈ whole, c.isDigit = true
  places_isDigit : ∀ c ∈ places, c.isDigit = true
  beyond_isNumberChar : ∀ c ∈ beyond, isNumberChar c = true
  length_places : beyond ≠ [] → places.length = 9

def Pointed.chars (n : Pointed) : List Char :=
  n.whole ++ (if n.comma then ',' else '.') :: (n.places ++ n.beyond)

inductive LooseTerm
  | count (n : Digits) (unit : TimeUnit) (lower : Bool)
  | seconds (n : Digits) (lower : Bool)
  | pointed (n : Pointed) (lower : Bool)

def LooseTerm.chars : LooseTerm → List Char
  | count n unit lower => n.chars ++ [cased lower unit.letter]
  | seconds n lower => n.chars ++ [cased lower 'S']
  | pointed n lower => n.chars ++ [cased lower 'S']

/-- A text that may be read as a length of time. Without components after it there is no `T`. -/
structure LooseSpelling where
  sign : Sign
  lowerP : Bool
  dates : List DateTerm
  lowerT : Bool
  times : List LooseTerm
  ne_nil : dates ≠ [] ∨ times ≠ []

namespace LooseSpelling

def timeChars (t : LooseSpelling) : List Char :=
  if t.times = [] then [] else cased t.lowerT 'T' :: t.times.flatMap LooseTerm.chars

def chars (t : LooseSpelling) : List Char :=
  t.sign.chars ++ cased t.lowerP 'P' :: (t.dates.flatMap DateTerm.chars ++ t.timeChars)

end LooseSpelling

/-! ### Components that are read -/

/-- Every letter is its capital in one case or the other. -/
theorem exists_cased {c unit : Char} (h : c.toUpper = unit) : ∃ lower, cased lower unit = c := by
  have hsmall : ∀ n ∈ List.range' 97 26, Char.ofNat n = (Char.ofNat n).toUpper.toLower := by decide
  subst h
  by_cases hc : c.val ≥ 'a'.val ∧ c.val ≤ 'z'.val
  · have hlower : c = c.toUpper.toLower :=
      Text.of_letter (p := fun c => c = c.toUpper.toLower) hsmall hc.1 hc.2
    exact ⟨true, hlower.symm⟩
  · have hsame : c.toUpper = c := dif_neg hc
    exact ⟨false, hsame⟩

/-- Digits that are read as a number in range. -/
theorem exists_digits {number : List Char} {n : Nat}
    (h : (readDigits? number >>= fits?) = some n) : ∃ ds : Digits, ds.chars = number := by
  obtain ⟨m, hread, -⟩ := Option.bind_eq_some_iff.mp h
  obtain ⟨hne, hdigits⟩ := readDigits?_eq_some hread
  exact ⟨⟨number, hne, hdigits⟩, rfl⟩

theorem exists_dateUnit {letter : Char} {days : Nat} (h : daysIn letter = some days) :
    ∃ unit : DateUnit, unit.letter = letter := by
  rw [daysIn.eq_def] at h
  split at h
  · exact ⟨.year, rfl⟩
  · exact ⟨.month, rfl⟩
  · exact ⟨.week, rfl⟩
  · exact ⟨.day, rfl⟩
  · cases h

theorem exists_dateTerm {number : List Char} {unit : Char} {n : Nat}
    (h : datePart? (number, unit.toUpper) = some n) :
    ∃ t : DateTerm, t.chars = number ++ [unit] := by
  simp only [datePart?, Option.bind_eq_bind, Option.bind_eq_some_iff] at h
  obtain ⟨days, hdays, m, hread, -⟩ := h
  obtain ⟨dateUnit, hunit⟩ := exists_dateUnit hdays
  obtain ⟨ds, rfl⟩ := exists_digits (Option.bind_eq_some_iff.mpr hread)
  obtain ⟨lower, rfl⟩ := exists_cased hunit.symm
  exact ⟨⟨ds, dateUnit, lower⟩, rfl⟩

theorem exists_digits_of_whole? {number : List Char} {seconds n : Nat}
    (h : whole? number seconds = some n) : ∃ ds : Digits, ds.chars = number := by
  obtain ⟨m, hread, -⟩ := Option.bind_eq_some_iff.mp h
  exact exists_digits hread

/-- Where a text is cut at the first character that is not of a kind. -/
theorem eq_append_of_dropWhile {α : Type} {p : α → Bool} {l rest : List α} {a : α}
    (h : l.dropWhile p = a :: rest) : l = l.takeWhile p ++ a :: rest ∧ p a = false := by
  have hhead := List.head_dropWhile_not p (l := l) (by simp [h])
  refine ⟨?_, by simpa [h] using hhead⟩
  rw [← h, List.takeWhile_append_dropWhile]

/-- A number is cut at its first point or comma, if it has one. -/
theorem cutPoint_cases (number : List Char) :
    cutPoint number = (number, []) ∨
      ∃ w comma f, cutPoint number = (w, f) ∧
        number = w ++ (if comma = true then ',' else '.') :: f := by
  cases hrest : number.dropWhile fun c => c != '.' && c != ',' with
  | nil =>
      have hsplit := List.takeWhile_append_dropWhile (p := fun c => c != '.' && c != ',')
        (l := number)
      rw [hrest, List.append_nil] at hsplit
      exact .inl (by rw [cutPoint, hsplit, hrest, List.drop_nil])
  | cons p f =>
      obtain ⟨hsplit, hp⟩ := eq_append_of_dropWhile hrest
      have hcut : cutPoint number = (number.takeWhile fun c => c != '.' && c != ',', f) := by
        rw [cutPoint, hrest, List.drop_one, List.tail_cons]
      refine .inr ⟨_, p == ',', f, hcut, ?_⟩
      have hpoint : (if (p == ',') = true then ',' else '.') = p := by
        by_cases hcomma : p = ','
        · rw [if_pos (beq_iff_eq.mpr hcomma), hcomma]
        · rw [if_neg (mt beq_iff_eq.mp hcomma)]
          exact (by simpa [hcomma] using hp : p = '.').symm
      rw [hpoint]
      exact hsplit

theorem isDigit_of_seconds? {number w f : List Char} {n : Nat} (hcut : cutPoint number = (w, f))
    (h : seconds? number = some n) :
    (∀ c ∈ w, c.isDigit = true) ∧ ∀ c ∈ f.take 9, c.isDigit = true := by
  have hread {ds : List Char} {m : Nat} (h : readDigits? ds = some m) := (readDigits?_eq_some h).2
  have hnil {ds : List Char} (h : ds.isEmpty = true) : ∀ c ∈ ds, c.isDigit = true := by
    rw [List.isEmpty_iff.mp h]
    exact List.forall_mem_nil _
  simp only [seconds?, hcut, Option.bind_eq_bind, Option.bind_some] at h
  split at h <;> rename_i hw
  · refine ⟨hnil hw, ?_⟩
    split at h <;> rename_i hf
    · exact hnil hf
    · obtain ⟨m, hm, -⟩ := Option.bind_eq_some_iff.mp h
      exact hread hm
  · obtain ⟨k, hk, h⟩ := Option.bind_eq_some_iff.mp h
    obtain ⟨m, hm, -⟩ := Option.bind_eq_some_iff.mp hk
    refine ⟨hread hm, ?_⟩
    split at h <;> rename_i hf
    · exact hnil hf
    · obtain ⟨l, hl, -⟩ := Option.bind_eq_some_iff.mp h
      exact hread hl

theorem exists_seconds {number : List Char} {n : Nat} (h : seconds? number = some n)
    (hne : number ≠ []) (hnumber : ∀ c ∈ number, isNumberChar c = true) (lower : Bool) :
    ∃ t : LooseTerm, t.chars = number ++ [cased lower 'S'] := by
  rcases cutPoint_cases number with hcut | ⟨w, comma, f, hcut, rfl⟩
  · exact ⟨.seconds ⟨number, hne, (isDigit_of_seconds? hcut h).1⟩ lower, rfl⟩
  · obtain ⟨hwhole, hplaces⟩ := isDigit_of_seconds? hcut h
    have hbeyond : ∀ c ∈ f.drop 9, isNumberChar c = true := fun c hc =>
      hnumber c (List.mem_append_right _ (List.mem_cons_of_mem _ (List.mem_of_mem_drop hc)))
    have hlength : f.drop 9 ≠ [] → (f.take 9).length = 9 := fun hne =>
      List.length_take_of_le (Nat.le_of_lt (by simpa using hne))
    refine ⟨.pointed ⟨w, comma, f.take 9, f.drop 9, hwhole, hplaces, hbeyond, hlength⟩ lower, ?_⟩
    rw [LooseTerm.chars, Pointed.chars, List.take_append_drop]

theorem exists_looseTerm {number : List Char} {unit : Char} {n : Nat}
    (h : timePart? (number, unit.toUpper) = some n) (hne : number ≠ [])
    (hnumber : ∀ c ∈ number, isNumberChar c = true) :
    ∃ t : LooseTerm, t.chars = number ++ [unit] := by
  simp only [timePart?] at h
  split at h
  · rename_i hunit
    obtain ⟨lower, rfl⟩ := exists_cased hunit
    obtain ⟨ds, rfl⟩ := exists_digits_of_whole? h
    exact ⟨.count ds .hour lower, rfl⟩
  · rename_i hunit
    obtain ⟨lower, rfl⟩ := exists_cased hunit
    obtain ⟨ds, rfl⟩ := exists_digits_of_whole? h
    exact ⟨.count ds .minute lower, rfl⟩
  · rename_i hunit
    obtain ⟨lower, rfl⟩ := exists_cased hunit
    exact exists_seconds h hne hnumber lower
  · cases h

/-- A row of components that are all read is a row of terms, as soon as each of them is a term. -/
theorem exists_terms {α : Type} {chars : α → List Char} {part? : Component → Option Nat}
    (hterm : ∀ number unit n, part? (number, Char.toUpper unit) = some n → number ≠ [] →
      (∀ c ∈ number, isNumberChar c = true) → ∃ a, chars a = number ++ [unit])
    {number cs : List Char} {parts : List Nat} (hnumber : ∀ c ∈ number, isNumberChar c = true)
    (h : (componentsFrom number cs >>= List.mapM part?) = some parts) :
    ∃ ts : List α, number ++ cs = ts.flatMap chars ∧ ts.length = parts.length := by
  induction cs generalizing number parts with
  | nil =>
      rw [componentsFrom] at h
      split_ifs at h with hempty
      · obtain rfl : [] = parts := Option.some.inj h
        exact ⟨[], by rw [List.isEmpty_iff.mp hempty]; rfl, rfl⟩
      · cases h
  | cons c cs ih =>
      rw [componentsFrom] at h
      split_ifs at h with hc hempty
      · have hlonger : ∀ d ∈ number ++ [c], isNumberChar d = true := by
          simpa [or_imp, forall_and, hc] using hnumber
        obtain ⟨ts, hts, hlength⟩ := ih hlonger h
        exact ⟨ts, by rw [← hts, List.append_assoc, List.singleton_append], hlength⟩
      · cases h
      · obtain ⟨components, hrow, hparts⟩ := Option.bind_eq_some_iff.mp h
        obtain ⟨rest, hrest, rfl⟩ := Option.map_eq_some_iff.mp hrow
        rw [List.mapM_cons] at hparts
        obtain ⟨n, hn, hparts⟩ := Option.bind_eq_some_iff.mp hparts
        obtain ⟨ns, hns, hparts⟩ := Option.bind_eq_some_iff.mp hparts
        obtain rfl : n :: ns = parts := Option.some.inj hparts
        have hrow : (componentsFrom [] cs >>= List.mapM part?) = some ns :=
          Option.bind_eq_some_iff.mpr ⟨rest, hrest, hns⟩
        obtain ⟨ts, hts, hlength⟩ := ih (List.forall_mem_nil _) hrow
        obtain ⟨t, ht⟩ := hterm number c n hn (by simpa using hempty) hnumber
        refine ⟨t :: ts, ?_, by rw [List.length_cons, List.length_cons, hlength]⟩
        rw [List.flatMap_cons, ht, ← hts, List.nil_append, List.append_assoc,
          List.singleton_append]

/-! ### Texts that are read -/

theorem exists_dates {cs : List Char} {parts : List Nat}
    (h : (components? cs >>= List.mapM datePart?) = some parts) :
    ∃ ts : List DateTerm, cs = ts.flatMap DateTerm.chars ∧ ts.length = parts.length :=
  have hempty : ∀ c ∈ ([] : List Char), isNumberChar c = true := List.forall_mem_nil _
  exists_terms (fun _ _ _ h _ _ => exists_dateTerm h) hempty h

theorem exists_times {cs : List Char} {parts : List Nat}
    (h : (components? cs >>= List.mapM timePart?) = some parts) :
    ∃ ts : List LooseTerm, cs = ts.flatMap LooseTerm.chars ∧ ts.length = parts.length :=
  have hempty : ∀ c ∈ ([] : List Char), isNumberChar c = true := List.forall_mem_nil _
  exists_terms (fun _ _ _ h => exists_looseTerm h) hempty h

/-- What is added up is not nothing. -/
theorem ne_nil_of_guard {parts : List Nat} {n : Nat}
    (h : ((guard (!parts.isEmpty) : Option Unit).bind fun _ => total? parts) = some n) :
    parts ≠ [] := by
  rintro rfl
  cases h

theorem eq_T_of_not {c : Char} (h : (!(c == 'T' || c == 't')) = false) :
    ∃ lower, cased lower 'T' = c := by
  have hc : c = 'T' ∨ c = 't' := by simpa [or_iff_not_imp_left] using h
  rcases hc with rfl | rfl
  · exact ⟨false, rfl⟩
  · exact ⟨true, rfl⟩

/-- What is read after the `P` is the rest of a spelling. -/
theorem exists_spelling_of_body? {cs : List Char} {n : Nat} (h : body? cs = some n) (sign : Sign)
    (lowerP : Bool) :
    ∃ t : LooseSpelling, t.chars = sign.chars ++ cased lowerP 'P' :: cs := by
  rw [body?] at h
  obtain ⟨dateParts, hdates, h⟩ := Option.bind_eq_some_iff.mp h
  obtain ⟨dates, hchars, hlength⟩ := exists_dates hdates
  split at h
  · rename_i hrest
    have hall := List.takeWhile_append_dropWhile (p := fun c => !(c == 'T' || c == 't')) (l := cs)
    rw [hrest, List.append_nil] at hall
    have hne : dates ≠ [] := by
      have hparts := ne_nil_of_guard h
      rwa [List.append_nil, ← List.length_pos_iff, ← hlength, List.length_pos_iff] at hparts
    refine ⟨⟨sign, lowerP, dates, false, [], .inl hne⟩, ?_⟩
    rw [LooseSpelling.chars, LooseSpelling.timeChars, if_pos rfl, List.append_nil, ← hchars, hall]
  · cases h
  · rename_i c time hsingle hrest
    obtain ⟨hall, hT⟩ := eq_append_of_dropWhile hrest
    obtain ⟨lowerT, rfl⟩ := eq_T_of_not hT
    obtain ⟨timeParts, htimes, h⟩ := Option.bind_eq_some_iff.mp h
    obtain ⟨times, htime, -⟩ := exists_times htimes
    -- Nothing may come after the `T`, but the reader refuses that.
    have hne : times ≠ [] := by
      rintro rfl
      exact hsingle htime
    refine ⟨⟨sign, lowerP, dates, lowerT, times, .inr hne⟩, ?_⟩
    rw [LooseSpelling.chars, LooseSpelling.timeChars, if_neg hne, ← hchars, ← htime, ← hall]

theorem exists_spelling_of_signed? {negative : Bool} {cs : List Char} {d : Duration}
    (h : signed? negative cs = some d) (sign : Sign) :
    ∃ t : LooseSpelling, t.chars = sign.chars ++ cs := by
  rw [signed?.eq_def] at h
  split at h
  · obtain ⟨n, hn, -⟩ := Option.bind_eq_some_iff.mp h
    exact exists_spelling_of_body? hn sign false
  · obtain ⟨n, hn, -⟩ := Option.bind_eq_some_iff.mp h
    exact exists_spelling_of_body? hn sign true
  · cases h

/-- Whatever is read as a length of time is spelled as one, apart from digits that may be missing
before the point of the seconds and from what stands past the ninth place after it. -/
theorem exists_spelling_of_ofString? {s : String} {d : Duration} (h : ofString? s = some d) :
    ∃ t : LooseSpelling, Text.trimChars s.toList = t.chars := by
  rw [ofString?, ofChars?.eq_def] at h
  split at h
  · rename_i hchars
    obtain ⟨t, ht⟩ := exists_spelling_of_signed? h .minus
    exact ⟨t, hchars.trans ht.symm⟩
  · rename_i hchars
    obtain ⟨t, ht⟩ := exists_spelling_of_signed? h .plus
    exact ⟨t, hchars.trans ht.symm⟩
  · obtain ⟨t, ht⟩ := exists_spelling_of_signed? h .none
    exact ⟨t, ht.symm⟩

/-- Minus two weeks and a quarter of a second, with a fraction past the ninth place. -/
theorem exists_spelling_of_ofString?_quarter :
    ofString? " -p2Wt,2500000000s" = some ⟨-1209600250000000, by decide⟩ ∧
      ∃ t : LooseSpelling, Text.trimChars " -p2Wt,2500000000s".toList = t.chars :=
  have h : ofString? " -p2Wt,2500000000s" = some ⟨-1209600250000000, by decide⟩ := by
    decide +kernel
  ⟨h, exists_spelling_of_ofString? h⟩

/-! ### Digits that are missing -/

theorem Digits.not_noDigit (n : Digits) (cs : List Char) : ¬Text.NoDigit (n.chars ++ cs) := by
  obtain ⟨c, ds, h⟩ := List.exists_cons_of_ne_nil n.ne_nil
  have hc := n.isDigit c (by simp [h])
  simp [h, hc]

/-- Without a digit in front there are no components. -/
theorem eq_nil_of_noDigit {α : Type} {chars : α → List Char}
    (hchars : ∀ a cs, ¬Text.NoDigit (chars a ++ cs)) {l : List α} {cs : List Char}
    (h : Text.NoDigit (l.flatMap chars ++ cs)) : l = [] := by
  cases l with
  | nil => rfl
  | cons a l =>
      rw [List.flatMap_cons, List.append_assoc] at h
      exact absurd h (hchars a _)

theorem DateTerm.not_noDigit (t : DateTerm) (cs : List Char) :
    ¬Text.NoDigit (t.chars ++ cs) := by
  rw [chars, List.append_assoc]
  exact t.count.not_noDigit _

theorem TimeTerm.not_noDigit (t : TimeTerm) (cs : List Char) :
    ¬Text.NoDigit (t.chars ++ cs) := by
  rw [chars, List.append_assoc]
  cases t with
  | count n unit lower => exact n.not_noDigit _
  | seconds n fraction lower =>
      cases fraction with
      | none => exact n.not_noDigit _
      | some f =>
          rw [number, List.append_assoc]
          exact n.not_noDigit _

/-- A spelling goes on with a digit after its `T`. -/
theorem Spelling.not_noDigit {t : Spelling} {cs : List Char} (h : t.chars = 'P' :: 'T' :: cs) :
    ¬Text.NoDigit cs := by
  intro hcs
  rw [chars] at h
  have hafter : t.dates.flatMap DateTerm.chars ++ t.timeChars = 'T' :: cs := by
    cases hsign : t.sign <;> rw [hsign] at h
    · exact (List.cons.inj h).2
    · cases (List.cons.inj h).1
    · cases (List.cons.inj h).1
  have hdates : t.dates = [] :=
    eq_nil_of_noDigit DateTerm.not_noDigit (hafter ▸ Text.noDigit_cons.mpr rfl)
  rw [hdates, List.flatMap_nil, List.nil_append, timeChars] at hafter
  split_ifs at hafter with htimes
  have htail : t.times.flatMap TimeTerm.chars = cs := (List.cons.inj hafter).2
  have hnone : Text.NoDigit (t.times.flatMap TimeTerm.chars ++ []) := by
    rwa [List.append_nil, htail]
  exact htimes (eq_nil_of_noDigit TimeTerm.not_noDigit hnone)

/-- Half a second is read where no digit stands before the point, and that is no spelling. -/
theorem ofString?_of_leading_point :
    (ofString? "PT.5S").map nanos = some 500000000 ∧
      ¬∃ t : Spelling, Text.trimChars "PT.5S".toList = t.chars := by
  refine ⟨by decide +kernel, ?_⟩
  rintro ⟨t, h⟩
  have hbody : t.chars = 'P' :: 'T' :: ".5S".toList := h.symm
  exact Spelling.not_noDigit hbody (Text.noDigit_cons.mpr rfl)

end Duration

end Marshal
