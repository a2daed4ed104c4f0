import InfraModule.Proofs.Parse.Source
import InfraModule.Proofs.Parse.Termination

/-!
# Reading a value back

Reading undoes laying out. From the events of a value it gives the value back
(`Parse.rawValue_events`), but for containers that are nested too deep and for entries whose key is
no scalar. What is left of a value (`Source.prune`) and what is left out of it (`Source.omissions`)
are told from the value and the number of levels alone: each value that goes is reported once, in
the order of the document, and what stands in it is not looked at.
-/

namespace InfraModule

open ParseM

/-! ## What is left of a value -/

/-- Something that is left out of a value, with the span of its first event. -/
inductive Omission where
  /-- A container that is nested too deep. -/
  | container (first : Span)
  /-- An entry whose key is no scalar. -/
  | entry (first : Span)

/-- What is told of something that is left out. -/
def Omission.diagnostic (file : String) : Omission → Diagnostic
  | .container first => ⟨.error, "maximum nesting depth exceeded", first.location file⟩
  | .entry first => ⟨.error, "expected a literal key", first.location file⟩

namespace Source

mutual

/-- The value as it is read: with its tags, and with keys without theirs. A container runs from
where its first event starts to where its last event stops. -/
def raw (file : String) : Source → RawValue
  | .scalar span tag text => .scalar tag (span.location file) text
  | .sequence first last tag items =>
    .sequence tag ⟨file, first.start, last.stop⟩ (rawItems file items)
  | .mapping first last tag entries =>
    .mapping tag ⟨file, first.start, last.stop⟩ (rawEntries file entries)
termination_by structural a => a

/-- Values as they are read. -/
def rawItems (file : String) : List Source → List RawValue
  | [] => []
  | item :: items => item.raw file :: rawItems file items
termination_by structural items => items

/-- Keys and values as they are read. -/
def rawEntries (file : String) : List (Source × Source) → List (Key × RawValue)
  | [] => []
  | (key, value) :: entries => (key.key file, value.raw file) :: rawEntries file entries
termination_by structural entries => entries

end

mutual

/-- The value without containers that stand in more others than there are levels, and without
entries whose key is no scalar. A value that is itself removed leaves nothing, and takes its key
with it. -/
def prune : Source → Nat → Option Source
  | .scalar span tag text, _ => some (.scalar span tag text)
  | .sequence .., 0 => none
  | .sequence first last tag items, levels + 1 =>
    some (.sequence first last tag (pruneItems items levels))
  | .mapping .., 0 => none
  | .mapping first last tag entries, levels + 1 =>
    some (.mapping first last tag (pruneEntries entries levels))
termination_by structural a => a

/-- What is left of values one after the other. -/
def pruneItems : List Source → Nat → List Source
  | [], _ => []
  | item :: items, levels => (item.prune levels).toList ++ pruneItems items levels
termination_by structural items => items

/-- What is left of keys and values one after the other. -/
def pruneEntries : List (Source × Source) → Nat → List (Source × Source)
  | [], _ => []
  | (key, value) :: entries, levels =>
    (if key.isScalar then ((value.prune levels).map (key, ·)).toList else [])
      ++ pruneEntries entries levels
termination_by structural entries => entries

end

mutual

/-- What is left out of a value, in the order of the document. -/
def omissions : Source → Nat → List Omission
  | .scalar .., _ => []
  | .sequence first _ _ _, 0 => [.container first]
  | .sequence _ _ _ items, levels + 1 => itemOmissions items levels
  | .mapping first _ _ _, 0 => [.container first]
  | .mapping _ _ _ entries, levels + 1 => entryOmissions entries levels
termination_by structural a => a

/-- What is left out of values one after the other. -/
def itemOmissions : List Source → Nat → List Omission
  | [], _ => []
  | item :: items, levels => item.omissions levels ++ itemOmissions items levels
termination_by structural items => items

/-- What is left out of keys and values one after the other. -/
def entryOmissions : List (Source × Source) → Nat → List Omission
  | [], _ => []
  | (key, value) :: entries, levels =>
    (if key.isScalar then value.omissions levels else [.entry key.first])
      ++ entryOmissions entries levels
termination_by structural entries => entries

end

/-! ## Values of which nothing is left out -/

mutual

/-- How many containers are nested in each other at most, keys apart. -/
def depth : Source → Nat
  | .scalar .. => 0
  | .sequence _ _ _ items => itemDepth items + 1
  | .mapping _ _ _ entries => entryDepth entries + 1
termination_by structural a => a

/-- How many containers are nested in each other at most in values. -/
def itemDepth : List Source → Nat
  | [] => 0
  | item :: items => max item.depth (itemDepth items)
termination_by structural items => items

/-- How many containers are nested in each other at most in the values of keys. -/
def entryDepth : List (Source × Source) → Nat
  | [] => 0
  | (_, value) :: entries => max value.depth (entryDepth entries)
termination_by structural entries => entries

end

/-- The keys of all mappings in the value are scalars. -/
def LiteralKeys (a : Source) : Prop :=
  ∀ first last tag entries, a.HasPart (.mapping first last tag entries) →
    ∀ entry ∈ entries, entry.1.isScalar

section Whole

variable {a : Source} {items : List Source} {entries : List (Source × Source)} {levels : Nat}
  {first last : Span} {tag : Option String}

/-- A scalar has no keys. -/
theorem literalKeys_scalar (span : Span) (tag : Option String) (text : String) :
    (scalar span tag text).LiteralKeys := by
  intro first last tag' entries h
  cases h

/-- A sequence has literal keys only if all its items do. -/
theorem literalKeys_sequence :
    (sequence first last tag items).LiteralKeys ↔ ∀ a ∈ items, a.LiteralKeys := by
  constructor
  · exact fun h a ha _ _ _ _ hpart => h _ _ _ _ (.item ha hpart)
  · intro h first' last' tag' entries hpart
    cases hpart with
    | item hitem hpart => exact h _ hitem _ _ _ _ hpart

/-- A mapping has literal keys only if its own keys are scalars and all its values have literal
keys. -/
theorem literalKeys_mapping : (mapping first last tag entries).LiteralKeys ↔
    ∀ entry ∈ entries, entry.1.isScalar ∧ entry.2.LiteralKeys := by
  constructor
  · exact fun h entry hentry => ⟨h _ _ _ _ (.refl _) entry hentry,
      fun _ _ _ _ hpart => h _ _ _ _ (.value hentry hpart)⟩
  · intro h first' last' tag' entries' hpart
    cases hpart with
    | refl => exact fun entry hentry => (h entry hentry).1
    | value hentry hpart => exact (h _ hentry).2 _ _ _ _ hpart

/-- Values are nested within a depth if each of them is. -/
theorem itemDepth_le : itemDepth items ≤ levels ↔ ∀ a ∈ items, a.depth ≤ levels := by
  induction items with
  | nil => simp [itemDepth]
  | cons a items ih => simp [itemDepth, ih]

/-- The values of entries are nested within a depth if each of them is. -/
theorem entryDepth_le :
    entryDepth entries ≤ levels ↔ ∀ entry ∈ entries, entry.2.depth ≤ levels := by
  induction entries with
  | nil => simp [entryDepth]
  | cons entry entries ih => simp [entryDepth, ih]

/-- What is left of values is what is left of each. -/
theorem mem_pruneItems : a ∈ pruneItems items levels ↔ ∃ item ∈ items, a ∈ item.prune levels := by
  induction items with
  | nil => simp [pruneItems]
  | cons item items ih => simp [pruneItems, ih]

/-- What is left of entries is, for each scalar key, what is left of its value. -/
theorem mem_pruneEntries {entry : Source × Source} : entry ∈ pruneEntries entries levels ↔
    ∃ value, (entry.1, value) ∈ entries ∧ entry.1.isScalar ∧ entry.2 ∈ value.prune levels := by
  induction entries with
  | nil => simp [pruneEntries]
  | cons head entries ih =>
    obtain ⟨key, value⟩ := head
    obtain ⟨k, v⟩ := entry
    by_cases hkey : key.isScalar
    · cases hvalue : value.prune levels with
      | none => grind [pruneEntries]
      | some p => grind [pruneEntries]
    · grind [pruneEntries]

/-- Nothing is left out of values if nothing is left out of any. -/
theorem itemOmissions_eq_nil :
    itemOmissions items levels = [] ↔ ∀ a ∈ items, a.omissions levels = [] := by
  induction items with
  | nil => simp [itemOmissions]
  | cons item items ih => simp [itemOmissions, ih]

/-- Nothing is left out of entries if all keys are scalars and nothing is left out of any value. -/
theorem entryOmissions_eq_nil : entryOmissions entries levels = [] ↔
    ∀ entry ∈ entries, entry.1.isScalar ∧ entry.2.omissions levels = [] := by
  induction entries with
  | nil => simp [entryOmissions]
  | cons entry entries ih =>
    obtain ⟨key, value⟩ := entry
    by_cases hkey : key.isScalar
    · simp [entryOmissions, ih, hkey]
    · simp [entryOmissions, hkey]

/-- Values that are each left whole are left whole together. -/
theorem pruneItems_eq_self (h : ∀ a ∈ items, a.prune levels = some a) :
    pruneItems items levels = items := by
  induction items with
  | nil => rfl
  | cons item items ih =>
    obtain ⟨hitem, hitems⟩ := List.forall_mem_cons.mp h
    rw [pruneItems, hitem, ih hitems]
    rfl

/-- Entries with scalar keys whose values are each left whole are left whole together. -/
theorem pruneEntries_eq_self
    (h : ∀ entry ∈ entries, entry.1.isScalar ∧ entry.2.prune levels = some entry.2) :
    pruneEntries entries levels = entries := by
  induction entries with
  | nil => rfl
  | cons entry entries ih =>
    obtain ⟨⟨hkey, hvalue⟩, hentries⟩ := List.forall_mem_cons.mp h
    rw [pruneEntries, if_pos hkey, hvalue, ih hentries]
    rfl

/-- What is left of a value is within the limits. -/
theorem prune_within {p : Source} (h : p ∈ a.prune levels) : p.depth ≤ levels ∧ p.LiteralKeys := by
  induction a using Source.induction generalizing p levels with
  | scalar span tag text =>
    cases h
    exact ⟨Nat.zero_le _, literalKeys_scalar span tag text⟩
  | sequence first last tag items ih =>
    cases levels with
    | zero => cases h
    | succ levels =>
      cases h
      have hitems : ∀ p ∈ pruneItems items levels, p.depth ≤ levels ∧ p.LiteralKeys := by
        intro p hp
        obtain ⟨item, hitem, hp⟩ := mem_pruneItems.mp hp
        exact ih item hitem hp
      refine ⟨Nat.succ_le_succ (itemDepth_le.mpr fun p hp => (hitems p hp).1), ?_⟩
      exact literalKeys_sequence.mpr fun p hp => (hitems p hp).2
  | mapping first last tag entries ih =>
    cases levels with
    | zero => cases h
    | succ levels =>
      cases h
      have hentries : ∀ p ∈ pruneEntries entries levels,
          p.1.isScalar ∧ p.2.depth ≤ levels ∧ p.2.LiteralKeys := by
        intro p hp
        obtain ⟨value, hvalue, hkey, hp⟩ := mem_pruneEntries.mp hp
        exact ⟨hkey, (ih _ hvalue).2 hp⟩
      refine ⟨Nat.succ_le_succ (entryDepth_le.mpr fun p hp => (hentries p hp).2.1), ?_⟩
      exact literalKeys_mapping.mpr fun p hp => ⟨(hentries p hp).1, (hentries p hp).2.2⟩

/-- From a value within the limits nothing is left out. -/
theorem omissions_of_within (hdepth : a.depth ≤ levels) (hkeys : a.LiteralKeys) :
    a.omissions levels = [] := by
  induction a using Source.induction generalizing levels with
  | scalar span tag text => rfl
  | sequence first last tag items ih =>
    cases levels with
    | zero => simp [depth] at hdepth
    | succ levels =>
      have hitems := itemDepth_le.mp (Nat.le_of_succ_le_succ hdepth)
      rw [literalKeys_sequence] at hkeys
      exact itemOmissions_eq_nil.mpr fun a ha => ih a ha (hitems a ha) (hkeys a ha)
  | mapping first last tag entries ih =>
    cases levels with
    | zero => simp [depth] at hdepth
    | succ levels =>
      have hentries := entryDepth_le.mp (Nat.le_of_succ_le_succ hdepth)
      rw [literalKeys_mapping] at hkeys
      refine entryOmissions_eq_nil.mpr fun entry hentry => ⟨(hkeys entry hentry).1, ?_⟩
      exact (ih entry hentry).2 (hentries entry hentry) (hkeys entry hentry).2

/-- Where nothing is left out, the whole value is left. -/
theorem prune_of_omissions (h : a.omissions levels = []) : a.prune levels = some a := by
  induction a using Source.induction generalizing levels with
  | scalar span tag text => rfl
  | sequence first last tag items ih =>
    cases levels with
    | zero => cases h
    | succ levels =>
      have hitems := itemOmissions_eq_nil.mp h
      rw [prune, pruneItems_eq_self fun a ha => ih a ha (hitems a ha)]
  | mapping first last tag entries ih =>
    cases levels with
    | zero => cases h
    | succ levels =>
      have hentries := entryOmissions_eq_nil.mp h
      rw [prune, pruneEntries_eq_self fun entry hentry =>
        ⟨(hentries entry hentry).1, (ih entry hentry).2 (hentries entry hentry).2⟩]

/-- The whole value is left exactly if it is within the limits. -/
theorem prune_eq_self_iff : a.prune levels = some a ↔ a.depth ≤ levels ∧ a.LiteralKeys :=
  ⟨fun h => prune_within (Option.mem_def.mpr h),
    fun ⟨hdepth, hkeys⟩ => prune_of_omissions (omissions_of_within hdepth hkeys)⟩

/-- Something is left out exactly if the whole value is not left. -/
theorem omissions_eq_nil_iff : a.omissions levels = [] ↔ a.prune levels = some a := by
  refine ⟨prune_of_omissions, fun h => ?_⟩
  obtain ⟨hdepth, hkeys⟩ := prune_eq_self_iff.mp h
  exact omissions_of_within hdepth hkeys

end Whole

end Source

/-! ## Reading -/

namespace Parse

open Source

variable {setting : Setting} {b : Build} {depth levels : Nat} {rest : List Event} {c : Event}

/-- What is read and told of a value within so many levels. -/
def ReadsBack (setting : Setting) (levels : Nat) (a : Source) : Prop :=
  ∀ rest b depth, rawValueWithin levels setting ⟨a.events ++ rest, b, depth⟩
    = .ok ((a.prune levels).map (raw setting.file))
      ⟨rest, b.tell ((a.omissions levels).map (Omission.diagnostic setting.file)), depth⟩

/-- The items of a sequence are read one after the other. -/
theorem rawItems_events {items : List Source} (h : ∀ a ∈ items, ReadsBack setting levels a)
    (hc : c.kind = .sequenceEnd) (acc : List RawValue) (rest : List Event) (b : Build)
    (depth : Nat) : foldUntilClose .sequence (fun items => do
        return some (items ++ (← rawValueWithin levels).toList)) acc setting
        ⟨itemEvents items ++ c :: rest, b, depth⟩
      = .ok (some (acc ++ rawItems setting.file (pruneItems items levels)))
        ⟨c :: rest, b.tell ((itemOmissions items levels).map (Omission.diagnostic setting.file)),
          depth⟩ := by
  have hturn (acc : List RawValue) (s : ParseState) (hs : AtValue s) :
      (Result.final ((do return some (acc ++ (← rawValueWithin levels).toList) :
        ParseM (Option (List RawValue))) setting s)).events.length < s.events.length :=
    (Loop.rawItems levels).length_lt acc hs
  induction items generalizing acc b with
  | nil =>
    have hclose : AtClose .sequence ⟨itemEvents [] ++ c :: rest, b, depth⟩ := ⟨c, rest, rfl, hc⟩
    rw [foldUntilClose_of_close hturn hclose]
    simp [pruneItems, rawItems, itemOmissions, itemEvents]
  | cons a items ih =>
    obtain ⟨ha, hitems⟩ := List.forall_mem_cons.mp h
    rw [itemEvents, List.append_assoc]
    refine (foldUntilClose_of_some hturn (atValue_events a _ b depth)
      (Result.bind_of_ok (ha _ b depth))).trans ?_
    rw [ih hitems]
    simp only [pruneItems, itemOmissions, Build.tell_tell, List.map_append, List.append_assoc]
    cases a.prune levels <;> simp [rawItems]

/-- The loop over the entries of a mapping reads back what is left of them, behind the entries
before, and reports what is left out. -/
theorem rawEntries_events {entries : List (Source × Source)}
    (h : ∀ entry ∈ entries, ReadsBack setting levels entry.2) (hc : c.kind = .mappingEnd)
    (acc : List (Key × RawValue)) (rest : List Event) (b : Build) (depth : Nat) :
    foldUntilClose .mapping (rawEntry (rawValueWithin levels)) acc setting
        ⟨entryEvents entries ++ c :: rest, b, depth⟩
      = .ok (some (acc ++ rawEntries setting.file (pruneEntries entries levels)))
        ⟨c :: rest, b.tell ((entryOmissions entries levels).map (Omission.diagnostic setting.file)),
          depth⟩ := by
  have hturn (acc : List (Key × RawValue)) (s : ParseState) (hs : AtValue s) :
      (Result.final (rawEntry (rawValueWithin levels) acc setting s)).events.length
        < s.events.length :=
    (Loop.rawEntries levels).length_lt acc hs
  -- Each turn of the loop reads one entry and leaves the others.
  induction entries generalizing acc b with
  | nil =>
    have hclose : AtClose .mapping ⟨entryEvents [] ++ c :: rest, b, depth⟩ := ⟨c, rest, rfl, hc⟩
    rw [foldUntilClose_of_close hturn hclose]
    simp [pruneEntries, rawEntries, entryOmissions, entryEvents]
  | cons entry entries ih =>
    obtain ⟨key, value⟩ := entry
    obtain ⟨hvalue, hentries⟩ := List.forall_mem_cons.mp h
    rw [entryEvents, List.append_assoc, List.append_assoc]
    have hstart := atValue_events key (value.events ++ (entryEvents entries ++ c :: rest)) b depth
    cases key with
    | scalar span tag text =>
      have hstep : rawEntry (rawValueWithin levels) acc setting
          ⟨(Source.scalar span tag text).events
            ++ (value.events ++ (entryEvents entries ++ c :: rest)), b, depth⟩
          = .ok (some (acc ++ ((value.prune levels).map fun value =>
              ((Source.scalar span tag text).key setting.file, raw setting.file value)).toList))
            ⟨entryEvents entries ++ c :: rest,
              b.tell ((value.omissions levels).map (Omission.diagnostic setting.file)), depth⟩ := by
        refine eq_ok_of_post ?_
        unfold rawEntry
        rw [post_bind]
        refine (Result.post_of_ok (key_scalar rfl)).mpr ?_
        rw [post_bind]
        refine (Result.post_of_ok (hvalue _ b depth)).mpr ?_
        cases value.prune levels <;> simp
      refine (foldUntilClose_of_some hturn hstart hstep).trans ?_
      rw [ih hentries]
      simp only [pruneEntries, entryOmissions, isScalar, Build.tell_tell, List.map_append,
        List.append_assoc]
      cases value.prune levels <;> simp [rawEntries]
    -- A key that is a container is reported, and its value is skipped with it.
    | sequence | mapping =>
      refine (foldUntilClose_of_some hturn hstart
        (Result.bind_of_ok (key_container rfl value))).trans ?_
      rw [ih hentries]
      simp [pruneEntries, entryOmissions, isScalar, Omission.diagnostic, mistake]

/-- A scalar is read back within any number of levels. -/
theorem readsBack_scalar (span : Span) (tag : Option String) (text : String) :
    ReadsBack setting levels (.scalar span tag text) := by
  intro rest b depth
  refine eq_ok_of_post ?_
  unfold rawValueWithin
  rw [post_bind, post_here rfl, post_bind, post_current rfl]
  simp only [Event.kind_over]
  rw [post_bind, post_advance]
  simp [events, prune, raw, omissions]

/-- Where there are no levels, a container is told and skipped. -/
theorem readsBack_zero {a : Source} (ha : a.isScalar = false) : ReadsBack setting 0 a := by
  intro rest b depth
  cases a with
  | scalar => cases ha
  | sequence | mapping =>
    refine eq_ok_of_post ?_
    unfold rawValueWithin
    rw [post_bind, post_here rfl, post_bind, post_current rfl]
    exact (Result.post_of_ok (refuse_events _ _)).mpr ⟨rfl, rfl⟩

/-- A sequence is read back within one level more than its items. -/
theorem readsBack_sequence {items : List Source} (h : ∀ a ∈ items, ReadsBack setting levels a)
    (first last : Span) (tag : Option String) :
    ReadsBack setting (levels + 1) (.sequence first last tag items) := by
  intro rest b depth
  have hclose : (Event.over last .sequenceEnd).kind = .sequenceEnd := rfl
  have hitems := rawItems_events h hclose [] rest b (depth + 1)
  have hevents : (Source.sequence first last tag items).events ++ rest
      = .over first (.sequenceStart tag)
        :: (itemEvents items ++ .over last .sequenceEnd :: rest) := by
    simp [events]
  rw [hevents]
  refine eq_ok_of_post ?_
  unfold rawValueWithin
  rw [post_bind, post_here rfl, post_bind, post_current rfl]
  refine post_nested.mpr ?_
  unfold collect
  rw [post_bind, post_bind]
  refine (Result.post_of_ok hitems).mpr ?_
  rw [post_pure, post_bind]
  refine (post_closeFrom rfl).mpr ⟨?_, rfl⟩
  simp [prune, raw, Location.through, Span.location]

/-- A mapping is read back within one level more than its values. -/
theorem readsBack_mapping {entries : List (Source × Source)}
    (h : ∀ entry ∈ entries, ReadsBack setting levels entry.2) (first last : Span)
    (tag : Option String) : ReadsBack setting (levels + 1) (.mapping first last tag entries) := by
  intro rest b depth
  have hclose : (Event.over last .mappingEnd).kind = .mappingEnd := rfl
  have hentries := rawEntries_events h hclose [] rest b (depth + 1)
  have hevents : (Source.mapping first last tag entries).events ++ rest
      = .over first (.mappingStart tag)
        :: (entryEvents entries ++ .over last .mappingEnd :: rest) := by
    simp [events]
  rw [hevents]
  refine eq_ok_of_post ?_
  unfold rawValueWithin
  rw [post_bind, post_here rfl, post_bind, post_current rfl]
  refine post_nested.mpr ?_
  rw [post_bind]
  refine (Result.post_of_ok hentries).mpr ?_
  rw [post_bind]
  refine (post_closeFrom rfl).mpr ⟨?_, rfl⟩
  simp [prune, raw, Location.through, Span.location]

/-- Reading gives a value back, but for what is left out of it. -/
theorem readsBack (levels : Nat) (a : Source) : ReadsBack setting levels a := by
  induction a using Source.induction generalizing levels with
  | scalar span tag text => exact readsBack_scalar span tag text
  | sequence first last tag items ih =>
    cases levels with
    | zero => exact readsBack_zero rfl
    | succ levels => exact readsBack_sequence (fun a ha => ih a ha levels) first last tag
  | mapping first last tag entries ih =>
    cases levels with
    | zero => exact readsBack_zero rfl
    | succ levels =>
      exact readsBack_mapping (fun entry hentry => (ih entry hentry).2 levels) first last tag

/-- Reading takes the events of a value and no more, whatever follows them, and gives the value back
within the levels that may still be opened. What is left out of it is told, once each and in the
order of the document. What is left is within the limits, and of a value within the limits nothing
is left out or told. -/
theorem rawValue_events (setting : Setting) (a : Source) (rest : List Event) (b : Build)
    (depth : Nat) :
    let levels := setting.options.maxDepth - depth
    rawValue setting ⟨a.events ++ rest, b, depth⟩
      = .ok ((a.prune levels).map (raw setting.file))
        ⟨rest, b.tell ((a.omissions levels).map (Omission.diagnostic setting.file)), depth⟩ ∧
    (∀ p ∈ a.prune levels, p.depth ≤ levels ∧ p.LiteralKeys) ∧
    (a.omissions levels = [] ↔ a.prune levels = some a) ∧
    (a.prune levels = some a ↔ a.depth ≤ levels ∧ a.LiteralKeys) := by
  refine ⟨?_, fun p hp => prune_within hp, omissions_eq_nil_iff, prune_eq_self_iff⟩
  exact readsBack (setting.options.maxDepth - depth) a rest b depth

end Parse

end InfraModule
