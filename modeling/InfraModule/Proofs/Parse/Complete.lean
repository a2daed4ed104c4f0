import InfraModule.Proofs.Parse.Account
import InfraModule.Proofs.Parse.Declaration

/-!
# Declarations that are read in full

A draft holds what was read of all entries so far, unless an error was reported (`Draft.Holds`). A
declaration that is added for it lacks no mandatory key then, so that it mirrors the mapping; and a
list of declarations mirrors its sequence. By recursion on the levels that may still be opened,
every value of the schema table is read in full or reported (`reads_valueWithin`).
-/

namespace InfraModule

open ParseM ParseState

namespace Parse

variable {setting : Setting} {s : ParseState} {t u : Tree} {type : DeclarationType} {id : NodeId}
  {draft : Draft} {value : ValueReader} {entries : List BoundEntry} {e : BoundEntry}

/-! ## Drafts -/

/-- The draft is what was read of the entries: each key once, with a node that mirrors its value. -/
structure Draft.Holds (t : Tree) (draft : Draft) (entries : List BoundEntry) : Prop where
  /-- The keys are those of the kind. -/
  property : ∀ entry ∈ entries, draft.kind.property? entry.key = some entry.property
  /-- The nodes mirror the values. -/
  mirrors : ∀ entry ∈ entries, t.Mirrors entry.property.value entry.value entry.node
  /-- No key stands twice. -/
  nodup : (entries.map BoundEntry.key).Nodup
  /-- The keys have been seen, and no others. -/
  seen : ∀ key, key ∈ draft.seen ↔ key ∈ entries.map BoundEntry.key
  /-- What was read for a key is the node of its entry. -/
  bound : ∀ key, draft.bound? key = (entries.find? (·.key == key)).map BoundEntry.node

/-- What has been read of the entries, if a kind has been chosen. -/
def HoldsRead (t : Tree) (entries : List BoundEntry) : Option Draft → Prop
  | some draft => draft.Holds t entries
  | none => entries = []

namespace Draft

/-- Nothing has been read when the kind is chosen. -/
theorem holds_nil (t : Tree) (kind : Kind) : ({ kind } : Draft).Holds t [] where
  property := by simp
  mirrors := by simp
  nodup := List.nodup_nil
  seen := by simp
  bound := fun key => by simp [bound?]

namespace Holds

/-- A draft holds what was read as well when more is built. -/
theorem of_retains (h : draft.Holds t entries) (htu : t.Retains u) : draft.Holds u entries :=
  { h with mirrors := fun entry hentry => (h.mirrors entry hentry).of_retains htu }

/-- The node of an entry is what was read for its key. -/
theorem bound?_of_mem (h : draft.Holds t entries) (he : e ∈ entries) :
    draft.bound? e.key = some e.node := by
  have hsome : (entries.find? (·.key == e.key)).isSome = true :=
    List.find?_isSome.mpr ⟨e, he, beq_self_eq_true e.key⟩
  obtain ⟨found, hfound⟩ := Option.isSome_iff_exists.mp hsome
  -- No other entry has the key.
  have heq : found = e := List.inj_on_of_nodup_map h.nodup
    (List.mem_of_find?_eq_some hfound) he (by simpa using List.find?_some hfound)
  rw [h.bound, hfound, Option.map_some, heq]

/-- A key that was seen has a node. -/
theorem bound?_of_seen (h : draft.Holds t entries) {key : String} (hkey : key ∈ draft.seen) :
    ∃ id, draft.bound? key = some id := by
  obtain ⟨entry, hentry, rfl⟩ := List.mem_map.mp ((h.seen key).mp hkey)
  exact ⟨_, h.bound?_of_mem hentry⟩

/-- Nothing was read for a key that was not seen. -/
theorem bound?_of_not_seen (h : draft.Holds t entries) {key : String} (hkey : key ∉ draft.seen) :
    draft.bound? key = none := by
  have hnone : entries.find? (·.key == key) = none := by
    rw [List.find?_eq_none]
    intro entry hentry heq
    exact hkey ((h.seen key).mpr (List.mem_map.mpr ⟨entry, hentry, by simpa using heq⟩))
  rw [h.bound, hnone, Option.map_none]

/-- One more entry is read. -/
theorem append {draft' : Draft} (h : draft.Holds t entries) (hkind : draft'.kind = draft.kind)
    (hseen : draft'.seen = e.key :: draft.seen)
    (hbound : ∀ key, draft'.bound? key
      = (draft.bound? key).or (if e.key = key then some e.node else none))
    (hproperty : draft.kind.property? e.key = some e.property)
    (hmirrors : t.Mirrors e.property.value e.value e.node)
    (hnew : e.key ∉ draft.seen) : draft'.Holds t (entries ++ [e]) where
  property := by
    rw [hkind]
    exact List.forall_mem_append.mpr ⟨h.property, by simpa using hproperty⟩
  mirrors := List.forall_mem_append.mpr ⟨h.mirrors, by simpa using hmirrors⟩
  nodup := by
    rw [h.seen] at hnew
    rw [List.map_append]
    exact List.Nodup.append h.nodup (List.nodup_singleton _) (by simpa using hnew)
  seen := by
    intro key
    rw [hseen, List.mem_cons, h.seen, List.map_append, List.mem_append]
    simp [or_comm, eq_comm]
  bound := by
    intro key
    rw [hbound, h.bound, List.find?_append]
    by_cases hkey : e.key = key
    · cases entries.find? (·.key == key) <;> simp [hkey]
    · cases entries.find? (·.key == key) <;> simp [hkey]

variable {known : Property} {span : Span} {tag : Option String} {source : Source}

/-- The entry of the keyword is read. -/
theorem append_keyword (h : draft.Holds t entries)
    (hknown : draft.kind.property? known.key = some known)
    (hkeyword : draft.kind.isKeyword known.key = true) (hnew : known.key ∉ draft.seen)
    (hmirrors : t.Mirrors known.value source id) :
    ({ draft with seen := known.key :: draft.seen, keyword := some id } : Draft).Holds t
      (entries ++ [⟨span, tag, known, source, id⟩]) := by
  refine h.append rfl rfl (fun key => ?_) hknown hmirrors hnew
  have hsome : draft.kind.keyword = some known.key := by simpa [Kind.isKeyword] using hkeyword
  have hnone : draft.keyword = none := by
    simpa [bound?, hkeyword] using h.bound?_of_not_seen hnew
  by_cases hkey : known.key = key
  · subst hkey
    simp [bound?, hkeyword, hnone, BoundEntry.key]
  · have hother : draft.kind.isKeyword key = false := by simpa [Kind.isKeyword, hsome] using hkey
    simp [bound?, hother, hkey, BoundEntry.key]

/-- The entry of another key is read. -/
theorem append_value (h : draft.Holds t entries)
    (hknown : draft.kind.property? known.key = some known)
    (hkeyword : draft.kind.isKeyword known.key = false) (hnew : known.key ∉ draft.seen)
    (hmirrors : t.Mirrors known.value source id) :
    ({ draft with
        seen := known.key :: draft.seen
        values := draft.values ++ [(known.key, id)] } : Draft).Holds t
      (entries ++ [⟨span, tag, known, source, id⟩]) := by
  refine h.append rfl rfl (fun key => ?_) hknown hmirrors hnew
  by_cases hkey : known.key = key
  · subst hkey
    simp [bound?, hkeyword, BoundEntry.key, List.lookup_append]
  · have hkey' : (key == known.key) = false := by simpa using Ne.symm hkey
    by_cases hother : draft.kind.isKeyword key = true
    · simp [bound?, hother, hkey, BoundEntry.key]
    · simp [bound?, hother, hkey, hkey', BoundEntry.key, List.lookup_append, List.lookup_cons]

end Holds

/-- A declaration that was added for a draft mirrors its mapping if no mandatory key is missing. -/
theorem Finished.mirrors {given : Option NodeId} (h : draft.Finished t given u)
    (hholds : draft.Holds t entries) (hmissing : draft.missing = [])
    (haccepts : type.accepts draft.kind = true) : ∃ id, given = some id ∧ ∀ first last,
      u.Mirrors (.declaration type) (.mapping first last none (entries.map BoundEntry.source)) id
    := by
  have hmandatory : ∀ key ∈ draft.kind.mandatoryKeys, ∃ id, draft.bound? key = some id := by
    intro key hkey
    refine hholds.bound?_of_seen ?_
    by_contra hseen
    have hmem : key ∈ draft.missing := List.mem_filter.mpr ⟨hkey, by simpa using hseen⟩
    simp [hmissing] at hmem
  cases given with
  | none =>
    -- The keyword is mandatory, so it was read.
    obtain ⟨hsome, hnone⟩ := h
    obtain ⟨key, hkey⟩ := Option.isSome_iff_exists.mp hsome
    obtain ⟨id, hid⟩ := hmandatory key (Kind.mem_mandatoryKeys_of_keyword hkey)
    simp [bound?, Kind.isKeyword, hkey, hnone] at hid
  | some id =>
    obtain ⟨hretains, d, hnode, hbinds⟩ := h
    refine ⟨id, rfl, fun first last => .declaration hnode (hbinds.kind ▸ haccepts) ?_ rfl
      hholds.nodup (fun entry hentry => ⟨?_, ?_⟩) (fun entry hentry => ?_)
      fun key child hchild => ?_⟩
    · intro key hkey
      obtain ⟨child, hchild⟩ := hmandatory key (hbinds.kind ▸ hkey)
      rw [hbinds.bound key child hchild]
      rfl
    · rw [hbinds.kind]
      exact hholds.property entry hentry
    · exact hbinds.bound _ _ (hholds.bound?_of_mem hentry)
    · exact (hholds.mirrors entry hentry).of_retains hretains
    · refine (hbinds.authored key child hchild).imp_left fun hbound => ?_
      rw [hholds.bound, Option.map_eq_some_iff] at hbound
      obtain ⟨entry, hentry, hnode⟩ := hbound
      exact ⟨entry, List.mem_of_find?_eq_some hentry, hnode⟩

end Draft

/-! ## Entries -/

section Entries

variable (hyields : ∀ kind, Yields (value kind) fun t id => t.HasForm kind id)
  (hreads : ∀ kind, Reads (value kind) fun t source id => t.Mirrors kind source id)

include hyields hreads

/-- The value of a key is read in full or reported. -/
theorem accounts_property {known : Property}
    (hknown : draft.kind.property? known.key = some known) (hnew : known.key ∉ draft.seen)
    (hs : s.build.tree.Sound) : Ensures (property value draft known) setting s fun r u =>
      s.Accounts u (∃ draft' id source, r = some (some draft') ∧
        s.events = source.events ++ u.events ∧
        ∀ span tag entries, draft.Holds s.build.tree entries →
          draft'.Holds u.build.tree (entries ++ [⟨span, tag, known, source, id⟩])) := by
  unfold property
  refine Post.bind ((hreads known.value setting s hs).and
    (hyields known.value setting s hs).ensures) fun given u hu => ?_
  obtain ⟨hread, hgave⟩ := hu
  have hretains := hgave.made.retains
  rcases Kind.property?_cases hknown with ⟨hkeyword, -⟩ | ⟨hkeyword, -⟩
  · simp only [hkeyword, if_true]
    cases given with
    | none => exact hread.mono (by simp)
    | some id =>
      refine hread.mono ?_
      rintro ⟨_, source, ⟨⟩, hevents, hmirrors⟩
      exact ⟨_, id, source, rfl, hevents, fun span tag entries h =>
        (h.of_retains hretains).append_keyword hknown hkeyword hnew hmirrors⟩
  · simp only [hkeyword]
    refine hread.mono ?_
    rintro ⟨id, source, rfl, hevents, hmirrors⟩
    exact ⟨_, id, source, rfl, hevents, fun span tag entries h =>
      (h.of_retains hretains).append_value hknown hkeyword hnew hmirrors⟩

/-- An entry is read in full or reported. -/
theorem accounts_entry (read : Option Draft) (hs : s.build.tree.Sound) :
    Ensures (entry type value read) setting s fun r u => s.Accounts u (∃ (draft' : Draft)
      (e : BoundEntry), r = some (some draft') ∧
        s.events = Source.entryEvents [e.source] ++ u.events ∧
        ∀ entries, HoldsRead s.build.tree entries read →
          draft'.Holds u.build.tree (entries ++ [e])) := by
  unfold entry
  refine Post.bind ((accounts_key setting s).and (spares_key setting s).ensures) fun k u hu => ?_
  obtain ⟨hkey, htree⟩ := hu
  cases k with
  | none => exact hkey.mono (by simp)
  | some k =>
    -- Whatever is wrong with a key is reported before its value is skipped.
    have hrefuse (message : String) (r : Option (Option Draft))
        {Q : Option (Option Draft) → ParseState → Prop} :
        Ensures (do report message k.location; skip; return r) setting u
          fun r v => s.Accounts v (Q r v) :=
      (accounts_report_bind message k.location (Silent.skip.bind fun _ => Silent.pure r)).mono
        fun _ _ hv => hkey.bind (hv.mono False.elim)
    dsimp only
    split
    · exact hrefuse _ none
    · next draft hdraft =>
      -- The first key finds nothing read, and later keys find the draft.
      have hholds {entries : List BoundEntry} (h : HoldsRead s.build.tree entries read) :
          draft.Holds u.build.tree entries := by
        rw [htree]
        cases read with
        | some read =>
          cases hdraft
          exact h
        | none =>
          obtain ⟨kind, -, rfl⟩ := Option.map_eq_some_iff.mp hdraft
          cases h
          exact Draft.holds_nil _ kind
      split
      · exact hrefuse _ (some (some draft))
      · next known hknown =>
        have hknownKey : known.key = k.text := by simpa using List.find?_some hknown
        split
        · exact hrefuse _ (some (some draft))
        · next hnew =>
          refine (accounts_property hyields hreads (hknownKey ▸ hknown) hnew (htree ▸ hs)).mono
            fun r v hv => hkey.bind (hv.mono ?_)
          rintro ⟨draft', id, source, rfl, hevents, hread⟩ ⟨_, span, tag, ⟨⟩, hk⟩
          refine ⟨draft', ⟨span, tag, known, source, id⟩, rfl, ?_, fun entries h =>
            hread span tag entries (hholds h)⟩
          rw [hk, hevents]
          simp [Source.entryEvents, BoundEntry.source, BoundEntry.key, hknownKey]

/-- The entries of a declaration's mapping are read in full or reported. -/
theorem accounts_entries (htakes : ∀ kind, Takes (value kind)) (hs : s.build.tree.Sound) :
    Ensures (foldUntilClose .mapping (entry type value) none) setting s fun r u =>
      (DraftRead type s.build.tree r u.build.tree ∧ s.Accounts u (∃ read entries, r = some read ∧
        s.events = Source.entryEvents (entries.map BoundEntry.source) ++ u.events ∧
          HoldsRead u.build.tree entries read)) ∧ (AtClose .mapping u ∨ (r = none ∧ True)) := by
  refine ensures_foldUntilClose (I := fun r u => DraftRead type s.build.tree r u.build.tree ∧
    s.Accounts u (∃ read entries, r = some read ∧
      s.events = Source.entryEvents (entries.map BoundEntry.source) ++ u.events ∧
        HoldsRead u.build.tree entries read))
    (fun read s => turns_entry htakes type read) (fun read u hu => ?_) none ?_
  · refine ((post_entry hyields hu.1).ensures.and
      (accounts_entry hyields hreads read hu.1.grown.sound)).mono fun r v hv => ⟨hv.1, ?_⟩
    refine hu.2.bind (hv.2.mono ?_)
    rintro ⟨draft, e, rfl, hevents, hholds⟩ ⟨_, entries, ⟨⟩, hentries, hread⟩
    refine ⟨some draft, entries ++ [e], rfl, ?_, hholds entries hread⟩
    rw [hentries, hevents, List.map_append, Source.entryEvents_append, List.append_assoc]
    rfl
  · exact ⟨Tree.Grown.refl hs, accounts_of_eq rfl ⟨none, [], rfl, rfl, rfl⟩⟩

end Entries

/-! ## One declaration -/

/-- The mistake of keys that are missing, if there are any. -/
def missingMistakes (keys : List String) (l : Location) : List Diagnostic :=
  if keys.isEmpty then [] else [⟨.error, "missing keys: " ++ ", ".intercalate keys, l⟩]

/-- Missing keys are told in one error, if there are any. -/
theorem told_reportMissing (keys : List String) (l : Location) :
    Ensures (reportMissing keys l) setting s fun _ u =>
      s.build.Told (missingMistakes keys l) u.build := by
  unfold reportMissing missingMistakes
  split
  · exact Build.told_refl s.build
  · exact post_report.mpr (Diagnostics.toList_error _ _ l)

/-- What is told of missing keys are errors, and nothing is told only if none is missing. -/
theorem accounts_of_missing {u : ParseState} {keys : List String} {l : Location}
    (h : s.build.Told (missingMistakes keys l) u.build) : s.Accounts u (keys = []) := by
  refine ⟨_, h, ?_, ?_⟩
  · unfold missingMistakes
    split <;> simp
  · unfold missingMistakes
    split
    · next hkeys => exact fun _ => List.isEmpty_iff.mp hkeys
    · simp

/-- A mapping without a single key is empty, or reported. -/
theorem accounts_emptyDraft (start : Location) :
    Ensures (emptyDraft type start) setting s fun r u =>
      s.Accounts u (∃ draft, r = some draft ∧ ∀ t, draft.Holds t []) := by
  unfold emptyDraft
  split
  · next kind =>
    split
    · exact accounts_of_eq rfl ⟨_, rfl, fun t => Draft.holds_nil t kind⟩
    · next key hkey =>
      -- The keyword is one of the keys that are missing.
      have hmem := Kind.mem_mandatoryKeys_of_keyword hkey
      refine Post.bind (told_reportMissing kind.mandatoryKeys start) fun _ u hu => ?_
      refine (accounts_of_missing hu).mono fun hnil => ?_
      simp [hnil] at hmem
  · exact (accounts_report_bind _ start (Silent.pure none)).mono fun _ _ hu => hu.mono False.elim

/-- Binding properties reports nothing. -/
theorem silent_bindAll (id : NodeId) (values : List (String × NodeId)) :
    Silent (bindAll id values) :=
  Silent.forM (fun _ => (Silent.onTree _).map _) values

/-- Adding the default version reports nothing. -/
theorem silent_addDefaultVersion (draft : Draft) (id : NodeId) (l : Location) :
    Silent (addDefaultVersion draft id l) := by
  unfold addDefaultVersion
  split
  · exact Silent.read.bind fun _ => (Silent.onTree _).bind fun _ => silent_bindAll id _
  · exact Silent.pure _

/-- Finishing a declaration reports nothing but the keys that are missing. -/
theorem told_finish (draft : Draft) (start l : Location) :
    Ensures (finish draft start l) setting s fun _ u =>
      s.build.Told (missingMistakes draft.missing start) u.build := by
  unfold finish
  refine Post.bind (told_reportMissing draft.missing start) fun _ u hu => ?_
  -- Whatever is done from here on is silent.
  have hsilent (m : ParseM (Option NodeId)) (hm : Silent m) : Ensures m setting u fun _ v =>
      s.build.Told (missingMistakes draft.missing start) v.build :=
    (hm setting u).mono fun _ _ hv => by rwa [Build.Told, hv]
  split
  · exact hsilent _ (Silent.pure none)
  · exact hsilent _ ((Silent.onTree _).bind fun id => (silent_bindAll id _).bind fun _ =>
      (silent_addDefaultVersion draft id l).bind fun _ => Silent.pure _)

/-- A declaration whose entries were read in full mirrors them. -/
theorem accounts_finish_of_holds {v : ParseState} (h : draft.Typed type t s.build.tree)
    (start l : Location) {c : Event} (hread : v.Accounts s (∃ entries,
      v.events = Source.entryEvents (entries.map BoundEntry.source) ++ c :: s.events ∧
        draft.Holds s.build.tree entries)) :
    Ensures (finish draft start l) setting s fun r u => v.Accounts u (∃ sources,
      v.events = Source.entryEvents sources ++ c :: u.events ∧ ∃ id, r = some id ∧
        ∀ first last,
          u.build.tree.Mirrors (.declaration type) (.mapping first last none sources) id) := by
  refine ((post_finish h start l).ensures.and ((told_finish draft start l).and
    (stays_finish draft start l setting s).ensures)).mono fun r u hu => ?_
  obtain ⟨⟨-, hfinished⟩, hmissing, hstays⟩ := hu
  refine hread.bind ((accounts_of_missing hmissing).mono ?_)
  rintro hmissing ⟨entries, hevents, hholds⟩
  exact ⟨_, hstays.events ▸ hevents, hfinished.mirrors hholds hmissing h.accepts⟩

/-- Skipping the entries that are left reports nothing. -/
theorem silent_skipEntries : Silent skipEntries :=
  (Silent.foldUntilClose (G := False) (fun _ _ _ => turns_skipEntry)
    (fun _ => Silent.skip.bind fun _ => Silent.skip.bind fun _ => Silent.pure _) ()).map _

/-- A mapping that is opened as a declaration is read in full or reported. -/
theorem accounts_declarationBody
    (hyields : ∀ kind, Yields (value kind) fun t id => t.HasForm kind id)
    (hreads : ∀ kind, Reads (value kind) fun t source id => t.Mirrors kind source id)
    (htakes : ∀ kind, Takes (value kind)) (start : Location) (hs : s.build.tree.Sound) :
    Ensures (declarationBody type value start) setting s fun r u => s.Accounts u (∃ sources c,
      s.events = Source.entryEvents sources ++ c :: u.events ∧ c.kind = .mappingEnd ∧ ∃ id,
        r = some id ∧ ∀ first last,
          u.build.tree.Mirrors (.declaration type) (.mapping first last none sources) id) := by
  unfold declarationBody
  refine Post.bind (accounts_entries hyields hreads htakes hs) fun r u hu => ?_
  obtain ⟨⟨hdraft, hentries⟩, hclose⟩ := hu
  cases r with
  | none =>
    -- What made the loop give up was reported.
    refine Post.bind (silent_skipEntries setting u) fun _ v hv => ?_
    refine Post.bind (Silent.advance setting v) fun _ w hw => ?_
    exact (hentries.mono (by simp)).of_silent (hw.trans hv)
  | some read =>
    refine Post.bind (ensures_closeFrom start (by simpa using hclose)) fun l v hv => ?_
    obtain ⟨hbuild, c, hc, hcevents⟩ := hv
    rw [← hbuild] at hdraft hentries
    -- A declaration is added for what was read in full before the end of the mapping.
    have hfinish {draft : Draft} {w : ParseState}
        (htyped : draft.Typed type s.build.tree w.build.tree)
        (hread : s.Accounts w (∃ entries,
          s.events = Source.entryEvents (entries.map BoundEntry.source) ++ c :: w.events ∧
            draft.Holds w.build.tree entries)) :
        Ensures (finish draft start l) setting w fun r u => s.Accounts u (∃ sources c,
          s.events = Source.entryEvents sources ++ c :: u.events ∧ c.kind = .mappingEnd ∧ ∃ id,
            r = some id ∧ ∀ first last, u.build.tree.Mirrors (.declaration type)
              (.mapping first last none sources) id) :=
      (accounts_finish_of_holds htyped start l hread).mono fun _ _ hx => hx.mono
        fun ⟨sources, hevents, hmirrors⟩ => ⟨sources, c, hevents, hc, hmirrors⟩
    have hclosed : s.Accounts v (∃ entries,
        s.events = Source.entryEvents (entries.map BoundEntry.source) ++ c :: v.events ∧
          HoldsRead v.build.tree entries read) := by
      refine (hentries.of_silent (u := u) (by rw [hbuild])).mono ?_
      rintro ⟨_, entries, ⟨⟩, hevents, hholds⟩
      exact ⟨entries, hcevents ▸ hevents, hholds⟩
    cases read with
    | some draft => exact hfinish hdraft hclosed
    | none =>
      refine Post.bind ((accounts_emptyDraft start).and ((post_emptyDraft start hdraft).ensures.and
        (stays_emptyDraft type start setting v).ensures)) fun draft w hw => ?_
      obtain ⟨hempty, htyped, hstays⟩ := hw
      have hholds : s.Accounts w (∃ entries,
          s.events = Source.entryEvents (entries.map BoundEntry.source) ++ c :: w.events ∧
            ∃ d, draft = some d ∧ d.Holds w.build.tree entries) := by
        refine hclosed.bind (hempty.mono ?_)
        rintro ⟨d, rfl, hnil⟩ ⟨entries, hevents, rfl⟩
        exact ⟨[], hstays.events ▸ hevents, d, rfl, hnil _⟩
      cases draft with
      | none => exact hholds.mono (by simp)
      | some draft => exact hfinish htyped (hholds.mono (by simp))

/-! ## Lists of declarations -/

/-- Comparing a name with those before it reports nothing. -/
theorem silent_uniqueName? (id : NodeId) : Silent (uniqueName? id) := by
  unfold uniqueName?
  refine Silent.get.bind fun state => Silent.read.bind fun setting => ?_
  split
  · exact Silent.pure _
  · exact Silent.pure _

section Lists

variable {declaration : ParseM (Option NodeId)}

/-- An element of a list only adds to what is told. -/
theorem grows_element (hdeclaration : Grows declaration) (items : Items) :
    Grows (element declaration items) := by
  unfold element
  refine hdeclaration.bind fun given => ?_
  cases given with
  | none => exact (Spares.pure _).grows
  | some id =>
    refine (spares_uniqueName? id).grows.bind fun name => ?_
    cases name with
    | none => exact (Spares.pure _).grows
    | some name =>
      dsimp only
      split
      · exact (Spares.get.bind fun state => (Spares.report _ _).bind fun _ => Spares.pure _).grows
      · exact (Spares.pure _).grows

/-- An element that is left out was reported. -/
theorem accounts_element (items : Items)
    (hreads : Reads declaration fun t source id => t.Mirrors (.declaration type) source id)
    (hs : s.build.tree.Sound) : Ensures (element declaration items) setting s fun r u =>
      s.Accounts u (∃ items' id source, r = some items' ∧ items'.ids = items.ids ++ [id] ∧
        s.events = source.events ++ u.events ∧
          u.build.tree.Mirrors (.declaration type) source id) := by
  unfold element
  refine Post.bind (hreads setting s hs) fun given u hu => ?_
  cases given with
  | none => exact hu.mono (by simp)
  | some id =>
    refine Post.bind ((silent_uniqueName? id setting u).and
      ((spares_uniqueName? id setting u).ensures.and (stays_uniqueName? id setting u).ensures))
      fun name v hv => ?_
    obtain ⟨hsilent, htree, hstays⟩ := hv
    have hread := hu.of_silent hsilent
    -- An item that is taken is read of the element.
    have htaken (names : List String) : s.Accounts v (∃ items' id' source,
        some ({ ids := items.ids ++ [id], names := names } : Items) = some items' ∧
          items'.ids = items.ids ++ [id'] ∧ s.events = source.events ++ v.events ∧
            v.build.tree.Mirrors (.declaration type) source id') := by
      refine hread.mono ?_
      rintro ⟨_, source, ⟨⟩, hevents, hmirrors⟩
      exact ⟨_, id, source, rfl, rfl, hstays.events ▸ hevents, htree ▸ hmirrors⟩
    cases name with
    | none => exact htaken items.names
    | some name =>
      dsimp only
      split
      · refine Post.bind (Silent.get setting v) fun _ w hw => ?_
        refine (accounts_report_bind _ _ (Silent.pure (some items))).mono fun _ x hx => ?_
        exact (hread.of_silent hw).bind (hx.mono False.elim)
      · exact htaken (name :: items.names)

/-- A sequence that is opened as a list of declarations is read in full or reported. -/
theorem accounts_listBody (htakes : Takes declaration) (hgrows : Grows declaration)
    (hreads : Reads declaration fun t source id => t.Mirrors (.declaration type) source id)
    (start : Location) (hs : s.build.tree.Sound) :
    Ensures (listBody declaration start) setting s fun r u => s.Accounts u (∃ items c,
      s.events = Source.itemEvents items ++ c :: u.events ∧ c.kind = .sequenceEnd ∧
        List.Forall₂ (u.build.tree.Mirrors (.declaration type)) items r.1) := by
  unfold listBody
  refine Post.bind (ensures_foldItems (lasts_mirrors (.declaration type)) Items.ids
    (fun items s => turns_element htakes items) (grows_element hgrows)
    (fun items s hs => accounts_element items hreads hs) hs {} rfl) fun r u hu => ?_
  have hclose : AtClose .sequence u := by simpa using hu.1
  refine Post.bind (accounts_closeFrom (f := Source.itemEvents)
    (R := fun items t => List.Forall₂ (t.Mirrors (.declaration type)) items (r.getD {}).ids) start
    hclose (hu.2.mono ?_)) fun _ _ hv => hv
  rintro ⟨items, sources, rfl, hevents, hall⟩
  exact ⟨sources, hevents, hall⟩

end Lists

/-! ## All shapes -/

/-- Values other than declarations and lists of them are read in full or reported in any case. -/
theorem reads_valueWithin_of_declarations {levels : Nat}
    (hdeclaration : ∀ type, Reads (valueWithin levels (.declaration type))
      fun t source id => t.Mirrors (.declaration type) source id)
    (hlist : ∀ type, Reads (valueWithin levels (.declarationList type))
      fun t source id => t.Mirrors (.declarationList type) source id) (kind : ValueKind) :
    Reads (valueWithin levels kind) fun t source id => t.Mirrors kind source id := by
  -- What the table calls an expression mirrors the value as soon as it has its form.
  have hform {kind : ValueKind} {P : Tree → Source → NodeId → Prop}
      (hreads : Reads (valueWithin levels kind) P) (hkind : kind.isExpression = true) :
      Reads (valueWithin levels kind) fun t source id => t.Mirrors kind source id :=
    reads_mirrors hreads (yields_valueWithin levels kind) hkind
  cases kind with
  | string =>
    unfold valueWithin
    exact reads_string
  | int | bool => exact hform (by unfold valueWithin; exact reads_scalar _ _) rfl
  | expression => exact hform (by unfold valueWithin; exact reads_expressionWithin levels) rfl
  | condition => exact hform (by unfold valueWithin; exact reads_conditionWithin levels) rfl
  | object | list =>
    refine hform (P := fun _ _ _ => True) ?_ rfl
    unfold valueWithin
    exact reads_plain fun setting s _ _ _ _ hs => reads_expressionWithin levels setting s hs
  | stringList =>
    unfold valueWithin
    exact reads_stringListWithin levels
  | declaration type => exact hdeclaration type
  | declarationList type => exact hlist type

/-- Whatever the shape, a value of the schema table is read in full or reported. -/
theorem reads_valueWithin (levels : Nat) (kind : ValueKind) :
    Reads (valueWithin levels kind) fun t source id => t.Mirrors kind source id := by
  induction levels generalizing kind with
  | zero =>
    have hdeep {container : Container} {P : Tree → Source → NodeId → Prop} :
        Reads (plain container do let _ ← here; (tooDeep : ParseM (Option NodeId))) P :=
      reads_plain fun setting s e es _ _ _ => post_bind_here (fun _ => trivial) fun _ _ _ =>
        (accounts_refuse _).mono fun _ _ hu => hu.mono False.elim
    refine reads_valueWithin_of_declarations (fun type => ?_) (fun type => ?_) kind
    · exact hdeep
    · exact hdeep
  | succ levels ih =>
    refine reads_valueWithin_of_declarations (fun type => ?declaration) (fun type => ?list) kind
    case declaration =>
      refine reads_plain fun setting s e es hevents hkind hs => ?_
      refine post_bind_here (fun _ => trivial) fun d ds _ => ?_
      refine (ensures_nested_mapping (Q := fun r t sources => ∃ id, r = some id ∧
        ∀ first last, t.Mirrors (.declaration type) (.mapping first last none sources) id)
        hevents hkind fun v hv _ => ?_).mono fun r u hu => hu.mono ?_
      · exact accounts_declarationBody (yields_valueWithin levels) ih (takes_valueWithin levels) _
          (hv ▸ hs)
      · rintro ⟨first, last, sources, hsource, id, hid, hmirrors⟩
        exact ⟨id, _, hid, hsource, hmirrors first last⟩
    case list =>
      refine reads_plain fun setting s e es hevents hkind hs => ?_
      refine post_bind_here (fun _ => trivial) fun d ds _ => ?_
      have htakes := takes_valueWithin levels (.declaration type)
      have hyields := yields_valueWithin levels (.declaration type)
      have hmade (start : Location) :
          Ensures (nested (listBody (valueWithin levels (.declaration type)) start)) setting s
            fun r u => s.build.tree.Made u.build.tree r.1 :=
        post_nested.mpr (Result.Post.mono
          (post_listBody (s := { s with events := s.events.tail, depth := s.depth + 1 }) htakes
            hyields start (Tree.Grown.refl hs)) (fun _ _ hu => hu.1) fun _ _ _ => trivial)
      refine Post.bind ((hmade _).and (ensures_nested_sequence
        (Q := fun (r : List NodeId × Location) t items =>
          List.Forall₂ (t.Mirrors (.declaration type)) items r.1) hevents hkind fun v hv _ =>
          accounts_listBody htakes hyields.grows (ih (.declaration type)) _ (hv ▸ hs)))
        fun r u hu => ?_
      exact accounts_add_collection rfl hu.1 hu.2 r.2

/-- A value of any kind is read in full, or an error is reported. -/
theorem reads_valueOf (kind : ValueKind) :
    Reads (valueOf kind) fun t source id => t.Mirrors kind source id := by
  intro setting s hs
  unfold valueOf
  rw [Ensures, post_bind, post_levels]
  exact reads_valueWithin _ kind setting s hs

end Parse

end InfraModule
