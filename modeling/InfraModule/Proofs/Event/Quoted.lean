import InfraModule.Event.Collect

/-!
# Where quoted scalars stop

A quoted scalar is read in units (`Event.units`): between double quotes a backslash goes with the
character after it, between single quotes a quote goes with another one, and every other character
stands alone. A unit that is the quote alone closes the scalar. The search for it passes over one
unit after the other (`Event.closingQuote?_of_units`), so the scalar stops behind the first unit
that closes it, and without such a unit it stops nowhere (`Event.quoted_stop_exact`). Which line and
column that is can be told from the characters on the way (`Event.line_along`,
`Event.column_along`).
-/

namespace InfraModule.Event

variable {quote c d : Char} {u cs before last : List Char} {inside us : List (List Char)}

/-! ## Units -/

/-- Two characters that are read as one: between double quotes a backslash and what it stands
before, between single quotes a quote written twice. -/
def IsPair (quote c d : Char) : Prop :=
  (quote = '\x22' ∧ c = '\\') ∨ (quote = '\x27' ∧ c = '\x27' ∧ d = '\x27')

instance (quote c d : Char) : Decidable (IsPair quote c d) :=
  inferInstanceAs (Decidable (_ ∨ _))

/-- The units in which characters are read between such quotes. -/
def units (quote : Char) : List Char → List (List Char)
  | [] => []
  | [c] => [[c]]
  | c :: d :: cs =>
    if IsPair quote c d then [c, d] :: units quote cs else [c] :: units quote (d :: cs)

/-- Only no characters have no units. -/
theorem units_eq_nil (h : units quote cs = []) : cs = [] := by
  match cs with
  | [] => rfl
  | [c] => simp [units] at h
  | c :: d :: cs =>
    rw [units] at h
    split at h <;> simp at h

/-- The first unit is a pair, or it is a character that is in no pair with the next one. -/
theorem exists_of_units_eq_cons (h : units quote cs = u :: us) : ∃ rest, cs = u ++ rest ∧
    units quote rest = us ∧ ((∃ c d, u = [c, d] ∧ IsPair quote c d) ∨
      ∃ c, u = [c] ∧ ∀ d ∈ rest.head?, ¬ IsPair quote c d) := by
  match cs with
  | [] => simp [units] at h
  | [c] =>
    obtain ⟨rfl, rfl⟩ := List.cons.inj h
    exact ⟨[], rfl, rfl, Or.inr ⟨c, rfl, by simp⟩⟩
  | c :: d :: cs =>
    by_cases hpair : IsPair quote c d
    · rw [units, if_pos hpair] at h
      obtain ⟨rfl, rfl⟩ := List.cons.inj h
      exact ⟨cs, rfl, rfl, Or.inl ⟨c, d, rfl, hpair⟩⟩
    · rw [units, if_neg hpair] at h
      obtain ⟨rfl, rfl⟩ := List.cons.inj h
      exact ⟨d :: cs, rfl, rfl, Or.inr ⟨c, rfl, by simpa using hpair⟩⟩

/-- The units make up the characters. -/
theorem flatten_units (quote : Char) (cs : List Char) : (units quote cs).flatten = cs := by
  induction hus : units quote cs generalizing cs with
  | nil => rw [units_eq_nil hus, List.flatten_nil]
  | cons u us ih =>
    obtain ⟨rest, rfl, hrest, -⟩ := exists_of_units_eq_cons hus
    rw [List.flatten_cons, ih rest hrest]

/-! ## Lines and columns -/

/-- The position of a character, from that of the one before it. A line end is in column 0 of the
line that it starts. -/
def advance (last : Mark) (c : Char) : Mark :=
  if c = '\n' then ⟨last.line + 1, 0⟩ else ⟨last.line, last.column + 1⟩

/-- The position of the last of some characters, from that of the one before them. -/
def along (start : Mark) (cs : List Char) : Mark :=
  cs.foldl advance start

/-- Counting goes on from the last character of the first part. -/
theorem along_append (start : Mark) (cs ds : List Char) :
    along start (cs ++ ds) = along (along start cs) ds :=
  List.foldl_append

/-- Each line end starts a line. -/
theorem line_along (start : Mark) (cs : List Char) :
    (along start cs).line = start.line + cs.count '\n' := by
  induction cs generalizing start with
  | nil => rfl
  | cons c cs ih =>
    have hcs : (along start (c :: cs)).line = (advance start c).line + cs.count '\n' :=
      ih (advance start c)
    by_cases hc : c = '\n'
    · have hline : (advance start c).line = start.line + 1 := by rw [advance, if_pos hc]
      rw [hcs, hline, hc, List.count_cons_self]
      omega
    · have hline : (advance start c).line = start.line := by rw [advance, if_neg hc]
      rw [hcs, hline, List.count_cons_of_ne hc]

/-- On the same line every character takes a column. -/
theorem column_along (start : Mark) (h : '\n' ∉ cs) :
    (along start cs).column = start.column + cs.length := by
  induction cs generalizing start with
  | nil => rfl
  | cons c cs ih =>
    obtain ⟨hc, hrest⟩ := List.ne_and_not_mem_of_not_mem_cons h
    have hcs : (along start (c :: cs)).column = (advance start c).column + cs.length :=
      ih (advance start c) hrest
    have hcolumn : (advance start c).column = start.column + 1 := by
      rw [advance, if_neg (Ne.symm hc)]
    rw [hcs, hcolumn, List.length_cons]
    omega

/-- On a later line the columns are counted from the last line end. -/
theorem column_along_break (start : Mark) (h : '\n' ∉ last) :
    (along start (before ++ '\n' :: last)).column = last.length := by
  have hbreak : along start (before ++ '\n' :: last)
      = along ⟨(along start before).line + 1, 0⟩ last := along_append start before _
  rw [hbreak, column_along _ h, Nat.zero_add]

/-! ## The closing quote -/

/-- No quote in a pair closes a scalar. -/
theorem closingQuote?_of_pair (h : IsPair quote c d) (start : Mark) (cs : List Char) :
    closingQuote? quote start (c :: d :: cs) = closingQuote? quote (along start [c, d]) cs := by
  obtain ⟨rfl, rfl⟩ | ⟨rfl, rfl, rfl⟩ := h
  · by_cases hd : d = '\n'
    · subst hd
      simp [closingQuote?, along, advance]
    · simp [closingQuote?, along, advance, hd]
  · simp [closingQuote?, along, advance]

/-- No other character than the quote closes a scalar. -/
theorem closingQuote?_of_ne (hc : c ≠ quote) (h : ∀ d ∈ cs.head?, ¬ IsPair quote c d)
    (start : Mark) :
    closingQuote? quote start (c :: cs) = closingQuote? quote (advance start c) cs := by
  by_cases hbreak : c = '\n'
  · subst hbreak
    rfl
  · cases cs with
    | nil =>
      -- A backslash at the end of the text takes nothing with it.
      simp [closingQuote?, hc]
    | cons d cs =>
      have hescape : ¬ (c = '\\' ∧ quote = '\x22') := fun hescape =>
        h d rfl (Or.inl hescape.symm)
      rw [closingQuote?.eq_def]
      simp [hbreak, hescape, hc, advance]

/-- A quote alone closes the scalar. -/
theorem closingQuote?_of_quote (hquote : quote ≠ '\n')
    (h : ∀ d ∈ cs.head?, ¬ IsPair quote quote d) (start : Mark) :
    closingQuote? quote start (quote :: cs) = some ⟨start.line, start.column + 2⟩ := by
  have hescape : ¬ (quote = '\\' ∧ quote = '\x22') := by
    rintro ⟨rfl, hquote⟩
    simp at hquote
  cases cs with
  | nil => simp [closingQuote?, hescape]
  | cons d cs =>
    by_cases hd : d = '\x27'
    · have hsingle : quote ≠ '\x27' := fun hsingle => h d rfl (Or.inr ⟨hsingle, hsingle, hd⟩)
      rw [closingQuote?.eq_def]
      simp [hescape, hd, hsingle]
    · rw [closingQuote?.eq_def]
      simp [hescape, hd]

/-- The search passes over a unit that is not the quote alone. -/
theorem closingQuote?_of_unit (h : units quote cs = u :: us) (hu : u ≠ [quote]) :
    ∃ rest, cs = u ++ rest ∧ units quote rest = us ∧
      ∀ start, closingQuote? quote start cs = closingQuote? quote (along start u) rest := by
  obtain ⟨rest, rfl, hrest, ⟨c, d, rfl, hpair⟩ | ⟨c, rfl, halone⟩⟩ := exists_of_units_eq_cons h
  · exact ⟨rest, rfl, hrest, fun start => closingQuote?_of_pair hpair start rest⟩
  · have hc : c ≠ quote := fun hc => hu (by rw [hc])
    exact ⟨rest, rfl, hrest, closingQuote?_of_ne hc halone⟩

/-- The search passes over all units before the first that is the quote alone. -/
theorem closingQuote?_of_units (h : units quote cs = inside ++ us) (hinside : [quote] ∉ inside) :
    ∃ rest, cs = inside.flatten ++ rest ∧ units quote rest = us ∧ ∀ start,
      closingQuote? quote start cs = closingQuote? quote (along start inside.flatten) rest := by
  -- By induction on the units that are passed over; each leaves the position of its last character.
  induction inside generalizing cs with
  | nil => exact ⟨cs, rfl, h, fun start => rfl⟩
  | cons u inside ih =>
    obtain ⟨hu, hinside⟩ := List.ne_and_not_mem_of_not_mem_cons hinside
    obtain ⟨mid, rfl, hmid, hfirst⟩ := closingQuote?_of_unit h (Ne.symm hu)
    obtain ⟨rest, rfl, hrest, hlater⟩ := ih hmid hinside
    refine ⟨rest, by rw [List.flatten_cons, List.append_assoc], hrest, fun start => ?_⟩
    rw [hfirst, hlater, List.flatten_cons, along_append]

/-- Without a unit that is the quote alone nothing is found. -/
theorem closingQuote?_eq_none (h : [quote] ∉ units quote cs) (start : Mark) :
    closingQuote? quote start cs = none := by
  obtain ⟨rest, -, hrest, hall⟩ := closingQuote?_of_units (List.append_nil _).symm h
  rw [hall, units_eq_nil hrest, closingQuote?]

/-- The scalar stops one column after the first unit that is the quote alone. -/
theorem closingQuote?_eq_some (hquote : quote ≠ '\n')
    (h : units quote cs = inside ++ [quote] :: us) (hinside : [quote] ∉ inside) (start : Mark) :
    closingQuote? quote start cs = some
      ⟨(along start (inside.flatten ++ [quote])).line,
        (along start (inside.flatten ++ [quote])).column + 1⟩ := by
  obtain ⟨rest, -, hrest, hall⟩ := closingQuote?_of_units h hinside
  obtain ⟨rest, rfl, -, ⟨c, d, hpair, -⟩ | ⟨c, hc, halone⟩⟩ := exists_of_units_eq_cons hrest
  · simp at hpair
  · obtain rfl : quote = c := (List.cons.inj hc).1
    have hlast (m : Mark) : along m [quote] = ⟨m.line, m.column + 1⟩ := if_neg hquote
    rw [hall, List.singleton_append, closingQuote?_of_quote hquote halone, along_append, hlast]

/-- The stop of a quoted scalar is looked for in what follows its opening quote. -/
theorem quotedStop?_eq {source : List Char} {index : Nat} (h : source[index]? = some quote)
    (start : Mark) : quotedStop? (suffixes source) index start =
      closingQuote? quote start (source.drop (index + 1)) := by
  obtain ⟨hindex, rfl⟩ := List.getElem?_eq_some_iff.mp h
  rw [quotedStop?, getElem?_suffixes, if_pos hindex, List.drop_eq_getElem_cons hindex]

/-- A quoted scalar whose opening quote is the character at `index` is read in units, which make up
the characters behind that quote. It stops nowhere exactly if no unit is the quote alone. Else it
stops right after the first such unit, in the line that is as many lines after the first as there
are line ends up to there. If there are none, the column is counted from that of the opening quote,
and otherwise from the last of them. -/
theorem quoted_stop_exact {quote : Char} (hquote : quote = '\x27' ∨ quote = '\x22')
    {source : List Char} {index : Nat} (hindex : source[index]? = some quote) (start : Mark) :
    (units quote (source.drop (index + 1))).flatten = source.drop (index + 1) ∧
    (quotedStop? (suffixes source) index start = none ↔
      [quote] ∉ units quote (source.drop (index + 1))) ∧
    ∀ inside rest text, units quote (source.drop (index + 1)) = inside ++ [quote] :: rest →
      [quote] ∉ inside → text = inside.flatten ++ [quote] →
      ∃ stop, quotedStop? (suffixes source) index start = some stop ∧
        stop.line = start.line + text.count '\n' ∧
        ('\n' ∉ text → stop.column = start.column + text.length + 1) ∧
        ∀ before last, text = before ++ '\n' :: last → '\n' ∉ last →
          stop.column = last.length + 1 := by
  have hbreak : quote ≠ '\n' := by rcases hquote with rfl | rfl <;> decide
  rw [quotedStop?_eq hindex]
  refine ⟨flatten_units _ _, ⟨fun hnone hmem => ?unclosed, fun h => closingQuote?_eq_none h start⟩,
    fun inside rest text hunits hinside htext => ?closed⟩
  case unclosed =>
    obtain ⟨inside, rest, hunits, hinside⟩ := List.eq_append_cons_of_mem hmem
    rw [closingQuote?_eq_some hbreak hunits hinside] at hnone
    simp at hnone
  case closed =>
    refine ⟨_, closingQuote?_eq_some hbreak hunits hinside start, ?_, fun hone => ?_,
      fun before last hsplit hlast => ?_⟩
    · rw [← htext, line_along]
    · rw [← htext, column_along start hone]
    · rw [← htext, hsplit, column_along_break start hlast]

/-- No quote behind a backslash closes a scalar in double quotes, and no backslash behind another
takes a quote with it. -/
theorem quoted_stop_exact_of_escapes :
    let source := ['k', ':', '\x22', 'a', '\\', '\x22', '\\', '\n', 'b', '\\', '\\', '\x22', 'c']
    let inside := [['a'], ['\\', '\x22'], ['\\', '\n'], ['b'], ['\\', '\\']]
    source[2]? = some '\x22' ∧
      units '\x22' (source.drop 3) = inside ++ ['\x22'] :: [['c']] ∧ ['\x22'] ∉ inside ∧
      quotedStop? (suffixes source) 2 ⟨4, 3⟩ = some ⟨5, 5⟩ := by
  intro source inside
  have hindex : source[2]? = some '\x22' := rfl
  have hunits : units '\x22' (source.drop 3) = inside ++ ['\x22'] :: [['c']] := by decide
  have hinside : ['\x22'] ∉ inside := by decide
  obtain ⟨-, -, hstops⟩ := quoted_stop_exact (Or.inr rfl) hindex ⟨4, 3⟩
  obtain ⟨stop, hstop, hline, -, hcolumn⟩ := hstops inside [['c']] _ hunits hinside rfl
  have hlast : stop.column = 5 :=
    hcolumn ['a', '\\', '\x22', '\\'] ['b', '\\', '\\', '\x22'] rfl (by decide)
  refine ⟨hindex, hunits, hinside, ?_⟩
  rw [hstop, Option.some.injEq]
  calc stop = ⟨stop.line, stop.column⟩ := rfl
    _ = ⟨5, 5⟩ := by rw [hline, hlast]; rfl

end InfraModule.Event
