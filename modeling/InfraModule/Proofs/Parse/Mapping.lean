import InfraModule.Proofs.Parse.Complete
import InfraModule.Proofs.Parse.Entries

/-!
# The mapping of a declaration

Reading a declaration from a mapping comes to one of four outcomes (`Parse.Outcome`), which are told
from the entries of the mapping alone: there is no literal key, the first one chooses no kind, it is
the keyword and its value gives no node, or there is a declaration of the kind. Wherever the mapping
stands and whatever follows it, that is what reading it does (`Parse.declaration_of_mapping`).
-/

namespace InfraModule

open ParseM

namespace Parse

variable {setting : Setting} {type : DeclarationType} {kind : Kind} {depth : Nat} {b b₀ : Build}
  {rest : List Event} {draft : Draft} {entries : List (Source × Source)} {key : Source}

/-! ## Outcomes -/

/-- What is told of a mapping without a literal key. A kind without keyword needs none. -/
def keylessMessage? : DeclarationType → Option String
  | .concrete kind =>
    kind.keyword.map fun _ => "missing keys: " ++ ", ".intercalate kind.mandatoryKeys
  | .abstract _ => some "expected a declaration keyword"

/-- The kind that the first literal key chooses; without one it is a kind without keyword, if no
other is accepted. -/
def chosenKind? (type : DeclarationType) (entries : List (Source × Source)) : Option Kind :=
  match scalarKeys entries, type with
  | key :: _, type => type.resolveFirst key
  | [], .concrete kind => if kind.keyword.isNone then some kind else none
  | [], .abstract _ => none

/-- A declaration of a kind comes from entries. It binds under each key the node that the first
entry under the key gives, and nothing else; but a module that has no version is given the one
chosen in the options. -/
structure Declares (setting : Setting) (depth : Nat) (kind : Kind) (start : Location) (b : Build)
    (entries : List (Source × Source)) (id : NodeId) (u : Build) : Prop where
  /-- The value of the keyword gives a node. -/
  keyword : ∀ key, kind.keyword = some key →
    (valueFor? setting depth kind key [] b entries).isSome = true
  /-- What the entries come to is kept. -/
  retains : (afterEntries setting depth kind [] b entries).tree.Retains u.tree
  /-- After the entries, nothing is told but the mandatory keys that do not occur. -/
  told : (afterEntries setting depth kind [] b entries).Told
    (missingMistakes (kind.mandatoryKeys.filter (· ∉ scalarKeys entries)) start) u
  /-- The declaration. -/
  declaration : ∃ d, u.tree.node? id = some (.declaration d) ∧ d.kind = kind ∧ ∀ key,
    if kind = .module ∧ "Version" ∉ scalarKeys entries ∧ key = "Version" then
      ∃ version, d.bound? key = some version ∧ u.tree.node? version
        = some (.expression (.literal (.string setting.options.defaultModuleVersion)))
    else d.bound? key = valueFor? setting depth kind key [] b entries

/-- What reading a declaration from the entries of a mapping comes to: the node given, and what has
been built and told. -/
inductive Outcome (setting : Setting) (depth : Nat) (type : DeclarationType) (start : Location)
    (b : Build) : List (Source × Source) → Option NodeId → Build → Prop
  /-- Without a literal key there is no declaration, unless its kind has no keyword. -/
  | keyless {entries : List (Source × Source)} {message : String}
      (hkeys : scalarKeys entries = []) (hmessage : keylessMessage? type = some message) :
      Outcome setting depth type start b entries none
        (b.tell (notLiteral setting.file entries ++ [⟨.error, message, start⟩]))
  /-- A first literal key that chooses no kind is told, and nothing behind it is read. -/
  | unresolved {before after : List (Source × Source)} {key value : Source}
      (hkeys : scalarKeys before = []) (hkey : key.isScalar = true)
      (hkind : type.resolveFirst key.text = none) :
      Outcome setting depth type start b (before ++ (key, value) :: after) none
        (b.tell (notLiteral setting.file before ++
          [key.mistake setting.file s!"unexpected item keyword '{key.text}'"]))
  /-- Where the keyword's value gives no node, nothing behind it is read. -/
  | undeclared {before after : List (Source × Source)} {key value : Source} {kind : Kind}
      {known : Property} (hkeys : scalarKeys before = []) (hkey : key.isScalar = true)
      (hkind : type.resolveFirst key.text = some kind)
      (hkeyword : kind.isKeyword key.text = true) (hknown : kind.property? key.text = some known)
      (hvalue : (alone setting depth known.value value).1 = none) :
      Outcome setting depth type start b (before ++ (key, value) :: after) none
        ((b.tell (notLiteral setting.file before)).graft (alone setting depth known.value value).2)
  /-- Otherwise there is a declaration of the kind. -/
  | declared {entries : List (Source × Source)} {kind : Kind} {id : NodeId} {u : Build}
      (hkind : chosenKind? type entries = some kind)
      (hdeclares : Declares setting depth kind start b entries id u) :
      Outcome setting depth type start b entries (some id) u

section Whole

variable {c : Event} {start : Location} {before after : List (Source × Source)} {value : Source}

/-- A declaration that is given is of the kind that was chosen. -/
theorem Outcome.declares {id : NodeId} {u : Build}
    (h : Outcome setting depth type start b entries (some id) u) :
    ∃ kind, chosenKind? type entries = some kind ∧
      Declares setting depth kind start b entries id u := by
  generalize hgiven : some id = given at h
  cases h with
  | keyless | unresolved | undeclared => cases hgiven
  | declared hkind hdeclares =>
    cases hgiven
    exact ⟨_, hkind, hdeclares⟩

/-- A mapping has a first literal key, unless it has none. -/
theorem exists_first (entries : List (Source × Source)) : scalarKeys entries = [] ∨
    ∃ before key value after, entries = before ++ (key, value) :: after ∧
      scalarKeys before = [] ∧ key.isScalar = true := by
  induction entries with
  | nil => exact .inl rfl
  | cons first entries ih =>
    obtain ⟨key, value⟩ := first
    by_cases hkey : key.isScalar = true
    · exact .inr ⟨[], key, value, entries, rfl, rfl, hkey⟩
    · rcases ih with hkeys | ⟨before, key', value', after, rfl, hkeys, hkey'⟩
      · exact .inl (by simpa [scalarKeys, hkey] using hkeys)
      · refine .inr ⟨(key, value) :: before, key', value', after, rfl, ?_, hkey'⟩
        simpa [scalarKeys, hkey] using hkeys

/-- The keyword of a kind that was chosen is the key that chose it. -/
theorem eq_of_resolveFirst {name keyword : String} (h : type.resolveFirst name = some kind)
    (hkeyword : kind.keyword = some keyword) : keyword = name := by
  cases type with
  | concrete k =>
    obtain rfl : kind = k := by
      simpa [DeclarationType.accepts] using DeclarationType.accepts_of_resolveFirst h
    simp only [DeclarationType.resolveFirst, hkeyword] at h
    by_contra hne
    simp [hne] at h
  | abstract family =>
    have hfound := List.find?_some h
    simpa [Kind.isKeyword, hkeyword] using hfound

/-- A key that must be present is one of the kind. -/
theorem property?_isSome_of_mandatory {name : String} (h : name ∈ kind.mandatoryKeys) :
    (kind.property? name).isSome = true := by
  rw [Kind.mandatoryKeys, Sorted.mem_ofList, List.mem_map] at h
  obtain ⟨known, hmem, rfl⟩ := h
  exact List.find?_isSome.mpr ⟨known, (List.mem_filter.mp hmem).1, beq_self_eq_true known.key⟩

/-- The keys that a draft lacks are those that do not occur. -/
theorem Draft.Follows.missing (h : draft.Follows setting depth type kind b₀ entries b) :
    draft.missing = kind.mandatoryKeys.filter (· ∉ scalarKeys entries) := by
  rw [Draft.missing, h.chosen]
  refine List.filter_congr fun name hname => ?_
  simp [h.seen, property?_isSome_of_mandatory hname]

/-- A draft with a keyword, if its kind has one, becomes the declaration that comes from the
entries. -/
theorem Draft.Follows.finish (h : draft.Follows setting depth type kind b₀ entries b)
    (hkeyword : ∀ name, kind.keyword = some name →
      (valueFor? setting depth kind name [] b₀ entries).isSome = true) (l : Location) :
    ∃ id u, Parse.finish draft start l setting ⟨rest, b, depth⟩ = .ok (some id) ⟨rest, u, depth⟩ ∧
      Declares setting depth kind start b₀ entries id u := by
  obtain ⟨given, u, hok, ⟨⟨⟨-, hcompleted⟩, htold⟩, hstays⟩⟩ :=
    (((post_finish_completed h.typed start l).and (told_finish draft start l)).and
      (stays_finish draft start l setting ⟨rest, b, depth⟩)).exists_ok fun error u herror => by
        obtain ⟨⟨hfails, -⟩, te, hte⟩ := herror
        exact hfails.error te hte
  obtain ⟨es, u, n⟩ := u
  obtain ⟨rfl, rfl⟩ : es = rest ∧ n = depth := ⟨hstays.events, hstays.depth⟩
  cases given with
  | none =>
    -- A keyword that was read is in the draft.
    obtain ⟨hsome, hnone⟩ := hcompleted
    obtain ⟨name, hname⟩ := Option.isSome_iff_exists.mp hsome
    have hbound := hkeyword name (h.chosen ▸ hname)
    rw [← h.bound, Draft.bound?, if_pos (by simp [Kind.isKeyword, hname]), hnone] at hbound
    cases hbound
  | some id =>
    obtain ⟨hretains, d, hnode, hbecomes⟩ := hcompleted
    refine ⟨id, u, hok, hkeyword, h.build ▸ hretains, h.build ▸ h.missing ▸ htold, d, hnode,
      hbecomes.kind.trans h.chosen, fun name => ?_⟩
    have hlacks : draft.LacksVersion ↔ kind = .module ∧ "Version" ∉ scalarKeys entries := by
      rw [Draft.LacksVersion, h.chosen, h.seen]
      refine and_congr_right fun hmodule => not_congr (and_iff_left ?_)
      rw [hmodule]
      decide
    split
    · next hversion =>
      obtain ⟨hmodule, hnotMem, rfl⟩ := hversion
      exact hbecomes.version (hlacks.mpr ⟨hmodule, hnotMem⟩)
    · next hversion =>
      refine (hbecomes.bound name fun h => hversion ?_).trans (h.bound name)
      exact and_assoc.mp ⟨hlacks.mp h.1, h.2⟩

/-- The event at the cursor ends the mapping and gives its stop. -/
theorem closeFrom_cons : closeFrom start setting ⟨c :: rest, b, depth⟩
    = .ok (start.through (c.location setting.file)) ⟨rest, b, depth⟩ :=
  eq_ok_of_post ((post_closeFrom rfl).mpr ⟨rfl, rfl⟩)

/-- Where the loop gave up, the mapping ends without a declaration. -/
theorem declarationBody_of_none {s : ParseState}
    (h : foldUntilClose .mapping (entry type (inside setting depth)) none setting s
      = .ok none ⟨Source.entryEvents after ++ c :: rest, b, depth⟩)
    (hclose : c.kind = .mappingEnd) :
    declarationBody type (inside setting depth) start setting s = .ok none ⟨rest, b, depth⟩ :=
  (ParseM.bind_of_run h).trans (ParseM.bind_of_run (skipEntries_events hclose))

/-- A draft that the loop has read is finished behind the end of the mapping. -/
theorem declarationBody_of_draft {s : ParseState}
    (h : foldUntilClose .mapping (entry type (inside setting depth)) none setting s
      = .ok (some (some draft)) ⟨c :: rest, b, depth⟩) :
    declarationBody type (inside setting depth) start setting s
      = finish draft start (start.through (c.location setting.file)) setting ⟨rest, b, depth⟩ := by
  refine (ParseM.bind_of_run h).trans ?_
  exact ParseM.bind_of_run closeFrom_cons

/-- A mapping without a literal key is what its type says of one. -/
theorem declarationBody_of_keyless {s : ParseState}
    (h : foldUntilClose .mapping (entry type (inside setting depth)) none setting s
      = .ok (some none) ⟨c :: rest, b, depth⟩) :
    declarationBody type (inside setting depth) start setting s = (do
      match ← emptyDraft type start with
      | some draft => finish draft start (start.through (c.location setting.file))
      | none => return none : ParseM (Option NodeId)) setting ⟨rest, b, depth⟩ := by
  refine (ParseM.bind_of_run h).trans ?_
  exact ParseM.bind_of_run closeFrom_cons

/-- A type for which there is no declaration without a literal key says so. -/
theorem emptyDraft_of_message {message : String} (h : keylessMessage? type = some message) :
    emptyDraft type start setting ⟨rest, b, depth⟩
      = .ok none ⟨rest, b.tell [⟨.error, message, start⟩], depth⟩ := by
  cases type with
  | abstract family =>
    cases h
    exact ParseM.bind_of_run (report_eq_ok _ start)
  | concrete kind =>
    obtain ⟨keyword, hkeyword, rfl⟩ := Option.map_eq_some_iff.mp h
    have hmandatory : ¬ kind.mandatoryKeys.isEmpty = true := by
      rw [List.isEmpty_iff]
      exact List.ne_nil_of_mem (Kind.mem_mandatoryKeys_of_keyword hkeyword)
    unfold emptyDraft reportMissing
    simp only [hkeyword, if_neg hmandatory]
    exact ParseM.bind_of_run (report_eq_ok _ start)

/-- What a mapping without a literal key comes to. -/
theorem exists_outcome_of_keyless (hb : b.tree.Sound) (hkeys : scalarKeys entries = [])
    (hclose : c.kind = .mappingEnd) :
    ∃ given u, declarationBody type (inside setting depth) start setting
        ⟨Source.entryEvents entries ++ c :: rest, b, depth⟩ = .ok given ⟨rest, u, depth⟩ ∧
      Outcome setting depth type start b entries given u := by
  have hs (b : Build) : AtClose .mapping ⟨c :: rest, b, depth⟩ := ⟨c, rest, rfl, hclose⟩
  have hloop : foldUntilClose .mapping (entry type (inside setting depth)) none setting
      ⟨Source.entryEvents entries ++ c :: rest, b, depth⟩ = _ :=
    (entries_containers hkeys _).trans
      (foldUntilClose_of_close (length_lt_of_entry type setting depth) (hs _) none)
  rw [declarationBody_of_keyless hloop]
  cases hmessage : keylessMessage? type with
  | some message =>
    refine ⟨none, _, (ParseM.bind_of_run (emptyDraft_of_message hmessage)).trans ?_,
      .keyless hkeys hmessage⟩
    rw [Build.tell_tell]
    rfl
  | none =>
    obtain ⟨kind, rfl, hkeyword⟩ : ∃ kind, type = .concrete kind ∧ kind.keyword = none := by
      cases type with
      | concrete kind => exact ⟨kind, rfl, Option.map_eq_none_iff.mp hmessage⟩
      | abstract family => cases hmessage
    have haccepts : (DeclarationType.concrete kind).accepts kind = true := by
      simp [DeclarationType.accepts]
    have hfollows : ({ kind } : Draft).Follows setting depth (.concrete kind) kind b entries _ :=
      Draft.follows_containers hb haccepts hkeys
    obtain ⟨id, u, hfinish, hdeclares⟩ := hfollows.finish (by simp [hkeyword]) _
    refine ⟨some id, u, .trans ?_ hfinish, .declared ?_ hdeclares⟩
    · refine ParseM.bind_of_run (a := some ({ kind } : Draft)) ?_
      unfold emptyDraft
      simp only [hkeyword]
      rfl
    · simp [chosenKind?, hkeys, hkeyword]

/-- Where the first literal key chooses no kind, the loop gives up. -/
theorem loop_of_unresolved (hkey : key.isScalar = true)
    (hkind : type.resolveFirst key.text = none) (value : Source) (es : List Event) :
    foldUntilClose .mapping (entry type (inside setting depth)) none setting
        ⟨key.events ++ (value.events ++ es), b, depth⟩
      = .ok none ⟨es,
        b.tell [key.mistake setting.file s!"unexpected item keyword '{key.text}'"], depth⟩ :=
  foldUntilClose_of_none (length_lt_of_entry type setting depth) (atValue_events key _ b depth)
    (entry_unresolved hkey hkind value _)

/-- Where the first literal key is the keyword and its value gives no node, the loop gives up. -/
theorem loop_of_undeclared {known : Property} (hb : b.tree.Sound) (hkey : key.isScalar = true)
    (hkind : type.resolveFirst key.text = some kind) (hkeyword : kind.isKeyword key.text = true)
    (hknown : kind.property? key.text = some known)
    (hvalue : (alone setting depth known.value value).1 = none) (es : List Event) :
    foldUntilClose .mapping (entry type (inside setting depth)) none setting
        ⟨key.events ++ (value.events ++ es), b, depth⟩
      = .ok none ⟨es, b.graft (alone setting depth known.value value).2, depth⟩ := by
  have htext : known.key = key.text := by simpa using List.find?_some hknown
  refine foldUntilClose_of_none (length_lt_of_entry type setting depth)
    (atValue_events key _ b depth) ((entry_resolved hkey hkind value _).trans ?_)
  rw [entry_scalar hb hkey value, hknown]
  simp [Draft.read, htext, hkeyword, hvalue]

/-- Otherwise all entries are read, and the keyword's value is one of those. -/
theorem loop_of_declared (hkeys : scalarKeys before = [])
    (h : ({ kind } : Draft).Follows setting depth type kind b₀ before b)
    (hkey : key.isScalar = true) (hkind : type.resolveFirst key.text = some kind)
    (hgiven : ∀ known, kind.isKeyword key.text = true → kind.property? key.text = some known →
      (alone setting depth known.value value).1.isSome = true) (hclose : c.kind = .mappingEnd)
    (after : List (Source × Source)) (rest : List Event) :
    ∃ draft u, foldUntilClose .mapping (entry type (inside setting depth)) none setting
        ⟨key.events ++ (value.events ++ (Source.entryEvents after ++ c :: rest)), b, depth⟩
          = .ok (some (some draft)) ⟨c :: rest, u, depth⟩ ∧
      draft.Follows setting depth type kind b₀ (before ++ (key, value) :: after) u ∧
      ∀ name, kind.keyword = some name → (valueFor? setting depth kind name [] b₀
        (before ++ (key, value) :: after)).isSome = true := by
  have hcons : before ++ (key, value) :: after = before ++ [(key, value)] ++ after := by simp
  have hmem : key.text ∈ scalarKeys (before ++ [(key, value)]) := by
    simp [scalarKeys_append, mem_scalarKeys_cons, hkey]
  have hfirst (name : String) (hname : kind.isKeyword name = true) : name = key.text :=
    eq_of_resolveFirst hkind (by simpa [Kind.isKeyword] using hname)
  obtain ⟨draft₁, b₁, hentry, h₁⟩ := h.entry value (Source.entryEvents after ++ c :: rest)
    fun known hknown hkeyword => by
      have htext : known.key = key.text := by simpa using List.find?_some hknown
      exact .inr (hgiven known (htext ▸ hkeyword) hknown)
  obtain ⟨draft₂, b₂, hmore, h₂⟩ := h₁.all
    (fun name hname => hfirst name hname ▸ hmem) hclose
  rw [hcons]
  refine ⟨draft₂, b₂, ?_, h₂, fun name hname => ?_⟩
  · exact (foldUntilClose_of_some (length_lt_of_entry type setting depth)
      (atValue_events key _ b depth) ((entry_resolved hkey hkind value _).trans hentry)).trans hmore
  · have hkeyword : kind.isKeyword name = true := by simpa [Kind.isKeyword] using hname
    obtain rfl := hfirst name hkeyword
    obtain ⟨known, hknown⟩ := Option.isSome_iff_exists.mp
      (DeclarationType.property?_isSome_of_resolveFirst hkind)
    obtain ⟨id, hid⟩ := Option.isSome_iff_exists.mp (hgiven known hkeyword hknown)
    have hnotMem : key.text ∉ scalarKeys before := by simp [hkeys]
    rw [valueFor?_append, if_pos hmem, valueFor?_append, if_neg hnotMem, valueFor?,
      if_pos ⟨hkey, rfl⟩, hknown]
    simp [hid]

/-- What the entries of a mapping come to. -/
theorem exists_outcome (hb : b.tree.Sound) (hclose : c.kind = .mappingEnd) :
    ∃ given u, declarationBody type (inside setting depth) start setting
        ⟨Source.entryEvents entries ++ c :: rest, b, depth⟩ = .ok given ⟨rest, u, depth⟩ ∧
      Outcome setting depth type start b entries given u := by
  -- What comes of the mapping is settled by its first scalar key, if there is one.
  obtain hkeys | ⟨before, key, value, after, rfl, hkeys, hkey⟩ := exists_first entries
  · exact exists_outcome_of_keyless hb hkeys hclose
  have hevents : Source.entryEvents (before ++ (key, value) :: after) ++ c :: rest
      = Source.entryEvents before ++
        (key.events ++ (value.events ++ (Source.entryEvents after ++ c :: rest))) := by
    simp [Source.entryEvents_append, Source.entryEvents]
  have hbefore : foldUntilClose .mapping (entry type (inside setting depth)) none setting
      ⟨Source.entryEvents (before ++ (key, value) :: after) ++ c :: rest, b, depth⟩ = _ :=
    hevents ▸ entries_containers hkeys _
  cases hkind : type.resolveFirst key.text with
  | none =>
    refine ⟨none, _, declarationBody_of_none
      (hbefore.trans (loop_of_unresolved hkey hkind value _)) hclose, ?_⟩
    rw [Build.tell_tell]
    exact .unresolved hkeys hkey hkind
  | some kind =>
    have hfollows : ({ kind } : Draft).Follows setting depth type kind b before _ :=
      Draft.follows_containers hb (DeclarationType.accepts_of_resolveFirst hkind) hkeys
    by_cases hfails : ∃ known, kind.isKeyword key.text = true ∧
      kind.property? key.text = some known ∧ (alone setting depth known.value value).1 = none
    · obtain ⟨known, hkeyword, hknown, hvalue⟩ := hfails
      exact ⟨none, _, declarationBody_of_none (hbefore.trans (loop_of_undeclared
        hfollows.typed.made.sound hkey hkind hkeyword hknown hvalue _)) hclose,
        .undeclared hkeys hkey hkind hkeyword hknown hvalue⟩
    · have hgiven (known : Property) (hkeyword : kind.isKeyword key.text = true)
          (hknown : kind.property? key.text = some known) :
          (alone setting depth known.value value).1.isSome = true := by
        by_contra hnone
        exact hfails ⟨known, hkeyword, hknown, by simpa using hnone⟩
      obtain ⟨draft, b₁, hloop, hdraft, hkeyword⟩ :=
        loop_of_declared hkeys hfollows hkey hkind hgiven hclose after rest
      obtain ⟨id, u, hfinish, hdeclares⟩ := hdraft.finish hkeyword _
      refine ⟨some id, u, (declarationBody_of_draft (hbefore.trans hloop)).trans hfinish,
        .declared ?_ hdeclares⟩
      have hfirst : scalarKeys (before ++ (key, value) :: after)
          = key.text :: scalarKeys after := by
        rw [scalarKeys_append, hkeys, List.nil_append]
        simp [scalarKeys, hkey]
      simpa [chosenKind?, hfirst] using hkind

/-- Wherever an untagged mapping stands and whatever follows it, a declaration that is read from it
is what its entries come to, if a level may still be opened. -/
theorem declaration_of_mapping (setting : Setting) (type : DeclarationType) (s : ParseState)
    (first last : Span) (entries : List (Source × Source)) (rest : List Event)
    (hs : s.build.tree.Sound) (hdepth : s.depth < setting.options.maxDepth)
    (hevents : s.events = (Source.mapping first last none entries).events ++ rest) :
    ∃ given u, declaration type setting s = .ok given ⟨rest, u, s.depth⟩ ∧
      Outcome setting (s.depth + 1) type (first.location setting.file) s.build entries given u := by
  obtain ⟨es, b, depth⟩ := s
  obtain ⟨levels, hlevels⟩ : ∃ levels, setting.options.maxDepth - depth = levels + 1 :=
    ⟨_, (Nat.succ_pred_eq_of_pos (Nat.sub_pos_of_lt hdepth)).symm⟩
  have hinside : inside setting (depth + 1) = valueWithin levels := by
    rw [inside, Nat.sub_add_eq, hlevels, Nat.add_sub_cancel]
  have hcons : (⟨es, b, depth⟩ : ParseState).events = .over first (.mappingStart none) ::
      (Source.entryEvents entries ++ .over last .mappingEnd :: rest) := by
    simpa [Source.events] using hevents
  obtain ⟨given, u, hbody, houtcome⟩ : ∃ given u, declarationBody type (inside setting (depth + 1))
      (first.location setting.file) setting
      ⟨Source.entryEvents entries ++ .over last .mappingEnd :: rest, b, depth + 1⟩
        = .ok given ⟨rest, u, depth + 1⟩ ∧ _ :=
    exists_outcome hs rfl
  refine ⟨given, u, eq_ok_of_post ?_, houtcome⟩
  unfold declaration valueOf
  rw [post_bind, post_levels, hlevels]
  unfold valueWithin plain atPlain
  rw [post_bind, post_bind, post_current hcons, post_pure]
  simp only [Event.kind_over, Container.plainStart, decide_true, if_true]
  rw [post_bind, post_here hcons, post_nested, hcons, ← hinside]
  exact (Result.post_of_ok hbody).mpr ⟨rfl, rfl⟩

/-- A key that comes again is not read again, even if its first value gave no node. -/
theorem declaration_of_repeated_key :
    let span : Span := ⟨default, default⟩
    let scalar := Source.scalar span none
    let entries := [(scalar "Name", scalar "p"), (scalar "Type", .sequence span span none []),
      (scalar "Type", scalar "String")]
    let s : ParseState := { events := (Source.mapping span span none entries).events }
    ∃ u, declaration (.concrete .propertyType) ⟨"m.yml", {}⟩ s = .ok (some 1) ⟨[], u, 0⟩ ∧
      Declares ⟨"m.yml", {}⟩ 1 .propertyType (span.location "m.yml") {} entries 1 u ∧
      valueFor? ⟨"m.yml", {}⟩ 1 .propertyType "Type" [] {} entries = none := by
  intro span scalar entries s
  have hdepth : s.depth < (Setting.mk "m.yml" {}).options.maxDepth := by decide
  have hevents : s.events = (Source.mapping span span none entries).events ++ [] :=
    (List.append_nil _).symm
  obtain ⟨given, u, hok, houtcome⟩ := declaration_of_mapping ⟨"m.yml", {}⟩
    (.concrete .propertyType) s span span entries [] Tree.sound_empty hdepth hevents
  have hgiven : (alone ⟨"m.yml", {}⟩ 0 (.declaration (.concrete .propertyType))
      (.mapping span span none entries)).1 = some 1 := by decide +kernel
  have halone : valueOf (.declaration (.concrete .propertyType)) ⟨"m.yml", {}⟩
      ⟨(Source.mapping span span none entries).events, {}, 0⟩ = .ok given ⟨[], u, 0⟩ := hok
  rw [alone, halone] at hgiven
  obtain rfl : given = some 1 := hgiven
  obtain ⟨kind, hkind, hdeclares⟩ := houtcome.declares
  cases hkind
  exact ⟨u, hok, hdeclares, by decide +kernel⟩

/-- A version is bound that no entry gives. -/
theorem version_of_no_entry :
    let span : Span := ⟨default, default⟩
    let scalar := Source.scalar span none
    let entries := [(scalar "Module", scalar "m"), (scalar "Items", .sequence span span none [])]
    let s : ParseState := { events := (Source.mapping span span none entries).events }
    ∃ id u d, declaration (.concrete .module) ⟨"m.yml", {}⟩ s = .ok (some id) ⟨[], u, 0⟩ ∧
      u.tree.node? id = some (.declaration d) ∧ "Version" ∉ scalarKeys entries ∧
      (d.bound? "Version").isSome = true :=
  ⟨_, _, _, rfl, rfl, by decide, rfl⟩

end Whole

end Parse

end InfraModule
