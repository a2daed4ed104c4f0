import InfraModule.Proofs.Parse.Context
import InfraModule.Proofs.Parse.Source
import InfraModule.Proofs.Parse.Termination

/-!
# The entries of a declaration

What the entries of a declaration's mapping come to is told from them alone: of each entry what it
adds to what was built and told before it (`Parse.afterEntry`), and of each key which node it gives
(`Parse.valueFor?`). In the loop over the entries a draft follows those that were read
(`Draft.Follows`), by induction on those that are left.
-/

namespace InfraModule

open ParseM

namespace Parse

/-! ## What entries come to -/

/-- What a value comes to alone: the node given, and what is built and told for it. -/
def alone (setting : Setting) (depth : Nat) (kind : ValueKind) (a : Source) :
    Option NodeId × Build :=
  match valueOf kind setting { events := a.events, depth } with
  | .ok id u => (id, u.build)
  | .error _ u => (none, u.build)

/-- The keys of entries that are scalars, in order. -/
def scalarKeys (entries : List (Source × Source)) : List String :=
  (entries.filter (·.1.isScalar)).map (·.1.text)

/-- What is built and told after one more entry of a declaration's mapping, where some keys came
before. -/
def afterEntry (setting : Setting) (depth : Nat) (kind : Kind) (seen : List String) (b : Build)
    (entry : Source × Source) : Build :=
  let (key, value) := entry
  if key.isScalar then
    match kind.property? key.text with
    | none => b.tell [key.mistake setting.file s!"unexpected key '{key.text}'"]
    | some known =>
      if key.text ∈ seen then
        b.tell [key.mistake setting.file s!"duplicate key '{key.text}'"]
      else b.graft (alone setting depth known.value value).2
  else b.tell [key.mistake setting.file "expected a literal key"]

/-- What is built and told after some more entries. -/
def afterEntries (setting : Setting) (depth : Nat) (kind : Kind) (seen : List String) (b : Build) :
    List (Source × Source) → Build
  | [] => b
  | entry :: entries =>
    afterEntries setting depth kind (seen ++ scalarKeys [entry])
      (afterEntry setting depth kind seen b entry) entries

/-- The node that the first entry under a key gives, if the kind has the key. -/
def valueFor? (setting : Setting) (depth : Nat) (kind : Kind) (key : String) (seen : List String)
    (b : Build) : List (Source × Source) → Option NodeId
  | [] => none
  | entry :: entries =>
    if entry.1.isScalar ∧ entry.1.text = key then do
      let known ← kind.property? key
      let id ← (alone setting depth known.value entry.2).1
      return b.tree.shift id
    else
      valueFor? setting depth kind key (seen ++ scalarKeys [entry])
        (afterEntry setting depth kind seen b entry) entries

section Entries

variable {setting : Setting} {depth : Nat} {kind : Kind} {key : String} {seen : List String}
  {b : Build} {entries entries' : List (Source × Source)} {entry : Source × Source}

/-- The scalar keys of entries in two runs are those of the first, then those of the second. -/
theorem scalarKeys_append :
    scalarKeys (entries ++ entries') = scalarKeys entries ++ scalarKeys entries' := by
  simp [scalarKeys]

/-- A key is among the scalar keys if it is the first entry's or one of the others'. -/
theorem mem_scalarKeys_cons : key ∈ scalarKeys (entry :: entries)
    ↔ (entry.1.isScalar ∧ entry.1.text = key) ∨ key ∈ scalarKeys entries := by
  by_cases h : entry.1.isScalar = true <;> simp [scalarKeys, h, @eq_comm _ key]

/-- Entries are told one run after the other, the second behind the keys of the first. -/
theorem afterEntries_append : afterEntries setting depth kind seen b (entries ++ entries')
    = afterEntries setting depth kind (seen ++ scalarKeys entries)
      (afterEntries setting depth kind seen b entries) entries' := by
  induction entries generalizing seen b with
  | nil => simp [afterEntries, scalarKeys]
  | cons entry entries ih =>
    rw [List.cons_append, afterEntries, ih, List.append_assoc, ← scalarKeys_append]
    rfl

/-- Entries under a key count only if the key did not occur before them. -/
theorem valueFor?_append : valueFor? setting depth kind key seen b (entries ++ entries')
    = if key ∈ scalarKeys entries then valueFor? setting depth kind key seen b entries
      else valueFor? setting depth kind key (seen ++ scalarKeys entries)
        (afterEntries setting depth kind seen b entries) entries' := by
  induction entries generalizing seen b with
  | nil => simp [scalarKeys, afterEntries]
  | cons first entries ih =>
    simp only [mem_scalarKeys_cons]
    rw [List.cons_append, valueFor?]
    by_cases hfirst : first.1.isScalar ∧ first.1.text = key
    · rw [if_pos hfirst, if_pos (.inl hfirst), valueFor?, if_pos hfirst]
    · have hrest : valueFor? setting depth kind key seen b (first :: entries)
          = valueFor? setting depth kind key (seen ++ scalarKeys [first])
            (afterEntry setting depth kind seen b first) entries := by
        rw [valueFor?, if_neg hfirst]
      simp only [hfirst, false_or, if_false]
      rw [ih, hrest, afterEntries, List.append_assoc, ← scalarKeys_append]
      rfl

/-- Nothing is given for a key that does not occur. -/
theorem valueFor?_of_notMem (h : key ∉ scalarKeys entries) :
    valueFor? setting depth kind key seen b entries = none := by
  induction entries generalizing seen b with
  | nil => rfl
  | cons first entries ih =>
    rw [mem_scalarKeys_cons, not_or] at h
    rw [valueFor?, if_neg h.1, ih h.2]

end Entries

/-! ## Single entries -/

variable {setting : Setting} {type : DeclarationType} {kind : Kind} {depth : Nat} {b b₀ : Build}
  {rest : List Event} {draft : Draft} {entries : List (Source × Source)} {key : Source}

/-- A value is read where it stands as it is alone. -/
theorem valueOf_events (hb : b.tree.Sound) (kind : ValueKind) (a : Source) (rest : List Event) :
    valueOf kind setting ⟨a.events ++ rest, b, depth⟩
      = .ok ((alone setting depth kind a).1.map b.tree.shift)
        ⟨rest, b.graft (alone setting depth kind a).2, depth⟩ := by
  obtain ⟨id, d, hok, hevents, hdepth, -⟩ :=
    exists_valueOf_alone kind setting depth (by simpa using a.value [])
  have hrun := (shifts_valueOf (x := ⟨b, rest⟩) hb kind setting _ Tree.loose_empty id d hok).1
  rw [fill_alone (s := ⟨a.events ++ rest, b, depth⟩) rfl] at hrun
  rw [hrun]
  simp [alone, hok, Context.fill, hevents, hdepth]

/-- What a value comes to alone is built from nothing, in the form of its kind. -/
theorem gave_alone (setting : Setting) (depth : Nat) (kind : ValueKind) (a : Source) :
    (alone setting depth kind a).2.Gave {} (fun t id => t.HasForm kind id)
      (alone setting depth kind a).1 := by
  obtain ⟨id, d, hok, -⟩ := exists_valueOf_alone kind setting depth (by simpa using a.value [])
  have hgave := (yields_valueOf kind setting _ Tree.sound_empty).of_ok hok
  rw [alone, hok]
  exact hgave

/-- A sound tree stays sound when what an entry's value comes to is placed behind it. -/
theorem sound_graft_alone (hb : b.tree.Sound) (setting : Setting) (depth : Nat) (kind : ValueKind)
    (a : Source) : (b.tree.graft (alone setting depth kind a).2.tree).Sound :=
  ((yields_valueOf kind setting _ hb).of_ok (valueOf_events hb kind a [])).made.sound

/-- The reader of values inside a mapping that is `depth` deep. -/
abbrev inside (setting : Setting) (depth : Nat) : ValueReader :=
  valueWithin (setting.options.maxDepth - depth)

/-- Where a level may be opened, values inside are read with one level less. -/
theorem exists_inside_eq (h : depth < setting.options.maxDepth) :
    ∃ levels, setting.options.maxDepth - depth = levels + 1 ∧
      inside setting (depth + 1) = valueWithin levels := by
  refine ⟨setting.options.maxDepth - depth - 1, by omega, ?_⟩
  rw [inside, Nat.sub_add_eq]

/-- A key that is reported is skipped with its value. -/
theorem report_skip_events {α : Type} (message : String) (l : Location) (answer : α)
    (value : Source) :
    (do report message l; skip; return answer : ParseM α) setting ⟨value.events ++ rest, b, depth⟩
      = .ok answer ⟨rest, b.tell [⟨.error, message, l⟩], depth⟩ :=
  (ParseM.bind_of_run (report_eq_ok message l)).trans (ParseM.bind_of_run (skip_events value))

/-- An entry whose key is no scalar leaves the draft as it is. -/
theorem entry_container (hkey : key.isScalar = false) (value : Source) (reader : ValueReader)
    (read : Option Draft) :
    entry type reader read setting ⟨key.events ++ (value.events ++ rest), b, depth⟩
      = .ok (some read)
        ⟨rest, b.tell [key.mistake setting.file "expected a literal key"], depth⟩ :=
  ParseM.bind_of_run (key_container hkey value)

/-- A first key that chooses no kind is reported, and nothing more is read. -/
theorem entry_unresolved (hkey : key.isScalar = true) (hkind : type.resolveFirst key.text = none)
    (value : Source) (reader : ValueReader) :
    entry type reader none setting ⟨key.events ++ (value.events ++ rest), b, depth⟩
      = .ok none ⟨rest,
        b.tell [key.mistake setting.file s!"unexpected item keyword '{key.text}'"], depth⟩ := by
  refine (ParseM.bind_of_run (key_scalar hkey)).trans ?_
  dsimp only [Source.key]
  rw [hkind]
  exact report_skip_events _ _ _ value

/-- A first key that chooses a kind is read as a later one is. -/
theorem entry_resolved (hkey : key.isScalar = true)
    (hkind : type.resolveFirst key.text = some kind) (value : Source) (reader : ValueReader) :
    entry type reader none setting ⟨key.events ++ (value.events ++ rest), b, depth⟩
      = entry type reader (some { kind }) setting
        ⟨key.events ++ (value.events ++ rest), b, depth⟩ := by
  refine (ParseM.bind_of_run (key_scalar hkey)).trans
    (.trans ?_ (ParseM.bind_of_run (key_scalar hkey)).symm)
  dsimp only [Source.key]
  rw [hkind]
  rfl

/-- What a draft becomes with the value of one of its keys; none if that is the keyword and has no
value. -/
def Draft.read (draft : Draft) (known : Property) (given : Option NodeId) : Option Draft :=
  if draft.kind.isKeyword known.key then
    given.map fun id => { draft with seen := known.key :: draft.seen, keyword := some id }
  else some { draft with
    seen := known.key :: draft.seen
    values := draft.values ++ (given.map (known.key, ·)).toList }

/-- A later key is reported if it is not one of the kind or came before, and else its value is
read. -/
theorem entry_scalar (hb : b.tree.Sound) (hkey : key.isScalar = true) (value : Source)
    (draft : Draft) :
    entry type (inside setting depth) (some draft) setting
        ⟨key.events ++ (value.events ++ rest), b, depth⟩
      = match draft.kind.property? key.text with
        | none => .ok (some (some draft)) ⟨rest,
            b.tell [key.mistake setting.file s!"unexpected key '{key.text}'"], depth⟩
        | some known =>
          if known.key ∈ draft.seen then .ok (some (some draft)) ⟨rest,
            b.tell [key.mistake setting.file s!"duplicate key '{key.text}'"], depth⟩
          else .ok ((draft.read known ((alone setting depth known.value value).1.map
              b.tree.shift)).map some)
            ⟨rest, b.graft (alone setting depth known.value value).2, depth⟩ := by
  refine (ParseM.bind_of_run (key_scalar hkey)).trans ?_
  dsimp only [Source.key, Option.orElse_eq_orElse, Option.orElse]
  cases draft.kind.property? key.text with
  | none => exact report_skip_events _ _ _ value
  | some known =>
    dsimp only
    split
    · exact report_skip_events _ _ _ value
    · refine (ParseM.bind_of_run (valueOf_events hb known.value value rest)).trans ?_
      dsimp only
      unfold Draft.read
      cases draft.kind.isKeyword known.key with
      | true => cases (alone setting depth known.value value).1 <;> rfl
      | false => rfl

/-! ## Drafts -/

/-- The value of a key that is read is bound to the key, and nothing else is changed. -/
theorem Draft.bound?_read {draft draft' : Draft} {known : Property} {given : Option NodeId}
    (h : draft.read known given = some draft') (hnew : draft.bound? known.key = none)
    (key : String) :
    draft'.bound? key = if known.key = key then given else draft.bound? key := by
  unfold Draft.read at h
  split at h
  · next hkeyword =>
    obtain ⟨id, rfl, rfl⟩ := Option.map_eq_some_iff.mp h
    have hsome : draft.kind.keyword = some known.key := by simpa [Kind.isKeyword] using hkeyword
    by_cases hkey : known.key = key <;> simp [Draft.bound?, Kind.isKeyword, hsome, hkey]
  · next hkeyword =>
    cases h
    rw [Draft.bound?, if_neg hkeyword] at hnew
    by_cases hkey : known.key = key
    · subst hkey
      rw [if_pos rfl, Draft.bound?, if_neg hkeyword, List.lookup_append, hnew]
      cases given <;> simp
    · rw [if_neg hkey, Draft.bound?, Draft.bound?, List.lookup_append]
      cases given <;> simp [List.lookup_cons, beq_eq_false_iff_ne.mpr (Ne.symm hkey)]

/-- A value that is read leaves the kind of the draft and adds its key to those seen. -/
theorem Draft.kind_read {draft draft' : Draft} {known : Property} {given : Option NodeId}
    (h : draft.read known given = some draft') :
    draft'.kind = draft.kind ∧ draft'.seen = known.key :: draft.seen := by
  unfold Draft.read at h
  split at h
  · obtain ⟨id, -, rfl⟩ := Option.map_eq_some_iff.mp h
    exact ⟨rfl, rfl⟩
  · cases h
    exact ⟨rfl, rfl⟩

/-- The draft of a kind is what was read of some entries, behind which `b` is built and told. -/
structure Draft.Follows (setting : Setting) (depth : Nat) (type : DeclarationType) (kind : Kind)
    (b₀ : Build) (entries : List (Source × Source)) (b : Build) (draft : Draft) : Prop where
  /-- The draft is of the kind. -/
  chosen : draft.kind = kind
  /-- The entries add what each of them adds. -/
  build : b = afterEntries setting depth kind [] b₀ entries
  /-- The nodes of the draft are new roots of their forms. -/
  typed : draft.Typed type b₀.tree b.tree
  /-- The keys of the kind that occur have been seen. -/
  seen : ∀ key, key ∈ draft.seen ↔ key ∈ scalarKeys entries ∧ (kind.property? key).isSome
  /-- Of each key the first value counts. -/
  bound : ∀ key, draft.bound? key = valueFor? setting depth kind key [] b₀ entries

/-- What is told of entries whose keys are no scalars. -/
def notLiteral (file : String) (entries : List (Source × Source)) : List Diagnostic :=
  entries.map fun entry => entry.1.mistake file "expected a literal key"

/-- Entries whose keys are no scalars are told. -/
theorem afterEntries_containers (hkeys : scalarKeys entries = []) (seen : List String) :
    afterEntries setting depth kind seen b entries = b.tell (notLiteral setting.file entries) := by
  induction entries generalizing b seen with
  | nil => simp [afterEntries, notLiteral]
  | cons entry entries ih =>
    have hentry : entry.1.isScalar = false := by
      by_contra h
      simp [scalarKeys, h] at hkeys
    have hrest : scalarKeys entries = [] := by simpa [scalarKeys, hentry] using hkeys
    simp [afterEntries, ih hrest, afterEntry, hentry, notLiteral]

/-- A draft of which only the kind is known follows entries without a literal key. -/
theorem Draft.follows_containers (hb : b.tree.Sound) (hkind : type.accepts kind = true)
    (hkeys : scalarKeys entries = []) : ({ kind } : Draft).Follows setting depth type kind b entries
      (b.tell (notLiteral setting.file entries)) where
  chosen := rfl
  build := (afterEntries_containers hkeys []).symm
  typed := Draft.typed_of_accepts (Tree.Grown.refl hb) hkind
  seen := by simp [hkeys]
  bound key := by
    rw [valueFor?_of_notMem (by simp [hkeys])]
    simp [Draft.bound?]

namespace Draft.Follows

variable {value : Source} {c : Event}

/-- An entry that is not read for its value leaves the draft as it is. -/
theorem skip (h : draft.Follows setting depth type kind b₀ entries b) (b' : Build)
    (hbuild : b' = afterEntry setting depth kind (scalarKeys entries) b (key, value))
    (htree : b'.tree = b.tree)
    (hskip : key.isScalar = true → (kind.property? key.text).isSome →
      key.text ∈ scalarKeys entries) :
    draft.Follows setting depth type kind b₀ (entries ++ [(key, value)]) b' where
  chosen := h.chosen
  build := by rw [hbuild, afterEntries_append, ← h.build]; rfl
  typed := htree ▸ h.typed
  seen name := by
    rw [h.seen, scalarKeys_append, List.mem_append, mem_scalarKeys_cons]
    refine and_congr_left fun hknown => ?_
    constructor
    · exact Or.inl
    · rintro (hmem | ⟨hscalar, rfl⟩ | hmem)
      · exact hmem
      · exact hskip hscalar hknown
      · cases hmem
  bound name := by
    rw [h.bound, valueFor?_append]
    split
    · rfl
    · next hnotMem =>
      rw [valueFor?_of_notMem hnotMem, valueFor?]
      split
      · next hentry =>
        -- Such a key is not one of the kind.
        obtain ⟨hscalar, rfl⟩ := hentry
        have hnone : kind.property? key.text = none := by
          by_contra hsome
          exact hnotMem (hskip hscalar (Option.isSome_iff_ne_none.mpr hsome))
        simp [hnone]
      · rfl

/-- An entry that is read for its value adds it to the draft. -/
theorem take {draft' : Draft} {known : Property}
    (h : draft.Follows setting depth type kind b₀ entries b) (hkey : key.isScalar = true)
    (hknown : kind.property? key.text = some known) (hnew : key.text ∉ scalarKeys entries)
    (hread : draft.read known ((alone setting depth known.value value).1.map b.tree.shift)
      = some draft') : draft'.Follows setting depth type kind b₀ (entries ++ [(key, value)])
        (b.graft (alone setting depth known.value value).2) := by
  have htext : known.key = key.text := by simpa using List.find?_some hknown
  obtain ⟨hkind, hseen⟩ := Draft.kind_read hread
  have hunseen : known.key ∉ draft.seen := fun hmem =>
    hnew (htext ▸ ((h.seen _).mp hmem).1)
  have hunbound : draft.bound? known.key = none := by
    rw [h.bound, valueFor?_of_notMem (htext ▸ hnew)]
  refine ⟨hkind.trans h.chosen, ?_, ?_, fun name => ?_, fun name => ?_⟩
  · rw [afterEntries_append, ← h.build, List.nil_append, afterEntries, afterEntries, afterEntry,
      if_pos hkey, hknown]
    dsimp only
    rw [if_neg hnew]
  -- The draft is typed since it is what reading the entry alone gives.
  · have hrun : entry type (inside setting depth) (some draft) setting
        ⟨key.events ++ (value.events ++ []), b, depth⟩ = _ :=
      entry_scalar h.typed.made.sound hkey value draft
    rw [h.chosen, hknown] at hrun
    dsimp only at hrun
    rw [if_neg hunseen, hread] at hrun
    have hdraft : DraftRead type b₀.tree (some (some draft)) b.tree := h.typed
    exact (post_entry (yields_valueWithin _) hdraft).of_ok hrun
  · rw [hseen, List.mem_cons, h.seen, scalarKeys_append, List.mem_append, mem_scalarKeys_cons,
      htext]
    constructor
    · rintro (rfl | ⟨hmem, hsome⟩)
      · exact ⟨.inr (.inl ⟨hkey, rfl⟩), by rw [hknown]; rfl⟩
      · exact ⟨.inl hmem, hsome⟩
    · rintro ⟨hmem | ⟨-, rfl⟩ | hmem, hsome⟩
      · exact .inr ⟨hmem, hsome⟩
      · exact .inl rfl
      · cases hmem
  · rw [Draft.bound?_read hread hunbound, valueFor?_append, h.bound, htext]
    -- Under this key it is the value just read, and under others what was read before.
    by_cases hname : key.text = name
    · subst hname
      rw [if_pos rfl, if_neg hnew, valueFor?, if_pos ⟨hkey, rfl⟩, hknown, ← h.build]
      exact Option.map_eq_bind
    · rw [if_neg hname]
      split
      · rfl
      · next hnotMem =>
        rw [valueFor?_of_notMem hnotMem, valueFor?, if_neg fun hentry => hname hentry.2]
        rfl

/-- A later entry is read as it is alone, unless it is the keyword and its value gives no node. -/
theorem entry (h : draft.Follows setting depth type kind b₀ entries b) (value : Source)
    (rest : List Event) (hread : ∀ known, kind.property? key.text = some known →
      kind.isKeyword known.key = true → known.key ∈ scalarKeys entries ∨
        (alone setting depth known.value value).1.isSome = true) :
    ∃ draft' b', Parse.entry type (inside setting depth) (some draft) setting
        ⟨key.events ++ (value.events ++ rest), b, depth⟩
          = .ok (some (some draft')) ⟨rest, b', depth⟩ ∧
      draft'.Follows setting depth type kind b₀ (entries ++ [(key, value)]) b' := by
  by_cases hkey : key.isScalar = true
  case neg =>
    have hcontainer : key.isScalar = false := by simpa using hkey
    refine ⟨draft, _, entry_container hcontainer value _ _, h.skip _ ?_ rfl fun h => ?_⟩
    · rw [afterEntry, if_neg hkey]
    · exact (hkey h).elim
  rw [entry_scalar h.typed.made.sound hkey, h.chosen]
  cases hknown : kind.property? key.text with
  | none =>
    refine ⟨draft, _, rfl, h.skip _ ?_ rfl fun _ h => ?_⟩
    · rw [afterEntry, if_pos hkey, hknown]
    · simp [hknown] at h
  | some known =>
    have htext : known.key = key.text := by simpa using List.find?_some hknown
    dsimp only
    split
    · next hseen =>
      have hmem : key.text ∈ scalarKeys entries := htext ▸ ((h.seen _).mp hseen).1
      refine ⟨draft, _, rfl, h.skip _ ?_ rfl fun _ _ => hmem⟩
      rw [afterEntry, if_pos hkey, hknown]
      exact (if_pos hmem).symm
    · next hseen =>
      have hnew : key.text ∉ scalarKeys entries := fun hmem =>
        hseen ((h.seen _).mpr ⟨htext ▸ hmem, by rw [htext, hknown]; rfl⟩)
      obtain ⟨draft', hdraft⟩ : ∃ draft', draft.read known
          ((alone setting depth known.value value).1.map b.tree.shift) = some draft' := by
        unfold Draft.read
        split
        · next hkeyword =>
          rw [h.chosen] at hkeyword
          have hsome := (hread known hknown hkeyword).resolve_left (htext ▸ hnew)
          obtain ⟨id, hid⟩ := Option.isSome_iff_exists.mp hsome
          exact ⟨_, by rw [hid]; rfl⟩
        · exact ⟨_, rfl⟩
      rw [hdraft]
      exact ⟨draft', _, rfl, h.take hkey hknown hnew hdraft⟩

end Draft.Follows

/-! ## The loop over the entries -/

/-- A turn of the loop takes an event. -/
theorem length_lt_of_entry (type : DeclarationType) (setting : Setting) (depth : Nat)
    (read : Option Draft) (s : ParseState) (hs : AtValue s) :
    (Result.final (entry type (inside setting depth) read setting s)).events.length
      < s.events.length :=
  (Loop.entries type (setting.options.maxDepth - depth)).length_lt read hs

section Loop

variable {c : Event}

/-- Once the keyword was read, all entries are. -/
theorem Draft.Follows.all {more : List (Source × Source)}
    (h : draft.Follows setting depth type kind b₀ entries b)
    (hkeyword : ∀ name, kind.isKeyword name = true → name ∈ scalarKeys entries)
    (hclose : c.kind = .mappingEnd) :
    ∃ draft' b', foldUntilClose .mapping (Parse.entry type (inside setting depth)) (some draft)
        setting ⟨Source.entryEvents more ++ c :: rest, b, depth⟩
          = .ok (some (some draft')) ⟨c :: rest, b', depth⟩ ∧
      draft'.Follows setting depth type kind b₀ (entries ++ more) b' := by
  induction more generalizing draft entries b with
  | nil =>
    refine ⟨draft, b, ?_, by simpa using h⟩
    have hs : AtClose .mapping ⟨c :: rest, b, depth⟩ := ⟨c, rest, rfl, hclose⟩
    exact foldUntilClose_of_close (length_lt_of_entry type setting depth) hs _
  | cons first more ih =>
    obtain ⟨key, value⟩ := first
    obtain ⟨draft₁, b₁, hentry, h₁⟩ := h.entry value (Source.entryEvents more ++ c :: rest)
      fun known _ hknown => .inl (hkeyword known.key hknown)
    obtain ⟨draft₂, b₂, hmore, h₂⟩ := ih h₁ fun name hname => by
      rw [scalarKeys_append]
      exact List.mem_append_left _ (hkeyword name hname)
    refine ⟨draft₂, b₂, ?_, by simpa using h₂⟩
    rw [Source.entryEvents, List.append_assoc, List.append_assoc,
      foldUntilClose_of_some (length_lt_of_entry type setting depth)
        (atValue_events key _ b depth) hentry]
    exact hmore

/-- Entries before the first literal key are told. -/
theorem entries_containers (hkeys : scalarKeys entries = []) (es : List Event) :
    foldUntilClose .mapping (entry type (inside setting depth)) none setting
        ⟨Source.entryEvents entries ++ es, b, depth⟩
      = foldUntilClose .mapping (entry type (inside setting depth)) none setting
        ⟨es, b.tell (notLiteral setting.file entries), depth⟩ := by
  induction entries generalizing b with
  | nil => simp [Source.entryEvents, notLiteral]
  | cons first entries ih =>
    obtain ⟨key, value⟩ := first
    have hkey : key.isScalar = false := by
      by_contra h
      simp [scalarKeys, h] at hkeys
    have hrest : scalarKeys entries = [] := by simpa [scalarKeys, hkey] using hkeys
    rw [Source.entryEvents, List.append_assoc, List.append_assoc,
      foldUntilClose_of_some (length_lt_of_entry type setting depth)
        (atValue_events key _ b depth) (entry_container hkey value _ none), ih hrest,
      Build.tell_tell]
    rfl

/-- The entries that are left are skipped. -/
theorem skipEntries_events (hclose : c.kind = .mappingEnd) :
    skipEntries setting ⟨Source.entryEvents entries ++ c :: rest, b, depth⟩
      = .ok () ⟨c :: rest, b, depth⟩ := by
  have hturn (acc : Unit) (s : ParseState) (hs : AtValue s) :
      (Result.final ((do skip; skip; return some () : ParseM (Option Unit))
        setting s)).events.length < s.events.length := Loop.skipped.length_lt acc hs
  refine Result.discard_eq_ok.mpr ⟨some (), ?_⟩
  induction entries with
  | nil =>
    have hs : AtClose .mapping ⟨c :: rest, b, depth⟩ := ⟨c, rest, rfl, hclose⟩
    exact foldUntilClose_of_close hturn hs ()
  | cons first entries ih =>
    obtain ⟨key, value⟩ := first
    rw [Source.entryEvents, List.append_assoc, List.append_assoc]
    refine (foldUntilClose_of_some hturn (atValue_events key _ b depth) ?_).trans ih
    exact (ParseM.bind_of_run (skip_events key)).trans (ParseM.bind_of_run (skip_events value))

end Loop

end Parse

end InfraModule
