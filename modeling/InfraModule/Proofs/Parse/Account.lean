import InfraModule.Proofs.Parse.Silence
import InfraModule.Proofs.Tree.Mirror

/-!
# Values that are read in full

A key, an uninterpreted value, a literal, a list of texts or a value that is given a meaning is read
in full unless an error is reported.
-/

namespace InfraModule

open ParseM ParseState

/-! ## Meanings -/

namespace BuildM

variable {P : Tree → NodeId → Prop} {v : Verdict (Option Term)}

/-- A step that follows a verdict gives a node unless it reports an error. -/
theorem Conveys.accounts {m : BuildM (Option NodeId)} (h : Conveys m P v) (hv : v.Reported)
    {setting : Setting} {s : ParseState} (hs : s.build.tree.Sound) :
    Ensures (build m) setting s fun r u => s.Accounts u (∃ id, r = some id) := by
  refine post_build.mpr (Result.Post.mono (h s.build hs) (fun r b hb => ?_) fun _ _ h => h.elim)
  refine ⟨v.mistakes, hb.told, hv.onlyErrors, fun hnil => ?_⟩
  -- Without an answer there would be a mistake.
  obtain ⟨term, hterm⟩ := Option.ne_none_iff_exists'.mp fun hnone => hv.ne_nil hnone hnil
  obtain ⟨id, hid, -⟩ := hb.some_of hterm
  exact ⟨id, hid⟩

end BuildM

namespace Parse

variable {α : Type} {setting : Setting} {s : ParseState} {container : Container}

/-! ## Uninterpreted values -/

/-- A key that is not given was reported. -/
theorem accounts_key (setting : Setting) (s : ParseState) : Ensures key setting s fun r u =>
    s.Accounts u (∃ k span tag, r = some k ∧
      s.events = (Source.scalar span tag k.text).events ++ u.events) := by
  unfold key
  refine post_bind_current (fun _ => trivial) fun e es hs => ?_
  -- What is no scalar is reported and skipped.
  have hrefuse : Ensures (do report "expected a literal key" (← here); skip; skip; return none)
      setting s fun (r : Option Key) u => s.Accounts u (∃ k span tag, r = some k ∧
        s.events = (Source.scalar span tag k.text).events ++ u.events) := by
    refine Post.bind (Silent.here setting s) fun l u hu => ?_
    refine (accounts_report_bind (m := do skip; skip; return (none : Option Key)) _ l
      (Silent.skip.bind fun _ => Silent.skip.bind fun _ => Silent.pure none)).mono
      fun _ v hv => ?_
    exact (accounts_of_eq hu True.intro).bind (hv.mono fun h _ => h.elim)
  cases hkind : e.kind with
  | scalar text tag =>
    refine post_bind_here (fun _ => trivial) fun d ds _ => ?_
    obtain ⟨span, hspan⟩ := Source.exists_scalar hkind es
    refine accounts_of_eq rfl ⟨_, span, tag, rfl, ?_⟩
    simp only [hs, List.tail_cons]
    exact hspan
  | _ => exact hrefuse

/-- An entry of an uninterpreted mapping that is left out was reported. -/
theorem accounts_rawEntry {value : ParseM (Option RawValue)}
    (hvalue : Reads value fun _ _ _ => True) (hs : s.build.tree.Sound)
    (entries : List (Key × RawValue)) : Ensures (rawEntry value entries) setting s fun _ u =>
      s.Accounts u (∃ source, s.events = Source.entryEvents [source] ++ u.events) := by
  unfold rawEntry
  refine Post.bind ((accounts_key setting s).and (spares_key setting s).ensures) fun r u hu => ?_
  obtain ⟨hkey, htree⟩ := hu
  cases r with
  | none => exact hkey.mono (by simp)
  | some k =>
    refine Post.bind (hvalue setting u (htree ▸ hs)) fun r v hv => ?_
    have hentry : s.Accounts v (∃ source, s.events = Source.entryEvents [source] ++ v.events) := by
      refine hkey.bind (hv.mono ?_)
      rintro ⟨a, source, -, hevents, -⟩ ⟨k', span, tag, -, hk⟩
      refine ⟨(.scalar span tag k'.text, source), ?_⟩
      rw [hk, hevents]
      simp [Source.entryEvents]
    cases r <;> exact hentry

/-- All entries of an uninterpreted mapping are read unless an error is reported. -/
theorem accounts_rawEntries {levels : Nat}
    (hvalue : Reads (rawValueWithin levels) fun _ _ _ => True) (hs : s.build.tree.Sound) :
    Ensures (foldUntilClose .mapping (rawEntry (rawValueWithin levels)) []) setting s fun _ u =>
      AtClose .mapping u ∧
        s.Accounts u (∃ entries, s.events = Source.entryEvents entries ++ u.events) := by
  refine (ensures_foldUntilClose (I := fun _ u => u.build.tree = s.build.tree ∧
    s.Accounts u (∃ entries, s.events = Source.entryEvents entries ++ u.events))
    (fun entries s => turns_rawEntry (takes_rawValueWithin levels) entries)
    (fun entries u hu => ?_) [] ⟨rfl, accounts_of_eq rfl ⟨[], rfl⟩⟩).mono fun r u hu => ?_
  · refine ((spares_rawEntry (spares_rawValueWithin levels) entries setting u).ensures.and
      (accounts_rawEntry hvalue (hu.1 ▸ hs) entries)).mono fun r v hv => ⟨hv.1.trans hu.1, ?_⟩
    refine hu.2.bind (hv.2.mono ?_)
    rintro ⟨source, hsource⟩ ⟨sources, hsources⟩
    refine ⟨sources ++ [source], ?_⟩
    rw [hsources, hsource, Source.entryEvents_append, List.append_assoc]
  · exact ⟨by simpa using hu.2, hu.1.2⟩

/-- A value that is read is one of which all has been read. -/
theorem reads_rawValueWithin (levels : Nat) : Reads (rawValueWithin levels) fun _ _ _ => True := by
  -- By induction on the levels; a container is read with one level less than it stands at.
  induction levels using Nat.strongRecOn with
  | _ levels ih =>
    intro setting s hs
    unfold rawValueWithin
    refine post_bind_here (fun _ => trivial) fun e es hevents => ?_
    rw [post_bind, post_current hevents]
    cases hkind : e.kind with
    | scalar text tag =>
      obtain ⟨span, hspan⟩ := Source.exists_scalar hkind es
      refine accounts_of_eq rfl ⟨_, .scalar span tag text, rfl, ?_, trivial⟩
      simp only [hevents, List.tail_cons]
      exact hspan
    | sequenceStart tag =>
      cases levels with
      | zero => exact Reads.tooDeep (P := fun _ _ _ => True) setting s hs
      | succ levels =>
        have hitem : Reads (rawValueWithin levels) fun _ _ _ => True :=
          ih levels (Nat.lt_succ_self levels)
        refine (ensures_nested_sequence (Q := fun (r : Option RawValue) _ _ => r.isSome = true)
          hevents hkind fun v hv _ => ?_).mono fun r u hu => hu.mono ?_
        · refine Post.bind (ensures_collect (fun _ _ _ _ _ h => h) (takes_rawValueWithin levels)
            (spares_rawValueWithin levels).grows hitem (hv ▸ hs)) fun items u hu => ?_
          have hread : v.Accounts u (∃ items, v.events = Source.itemEvents items ++ u.events ∧
              True) := by
            refine hu.2.mono ?_
            rintro ⟨items, hevents, -⟩
            exact ⟨items, hevents, trivial⟩
          refine Post.bind (accounts_closeFrom (R := fun _ _ => True) _ hu.1 hread)
            fun l w hw => hw.mono ?_
          rintro ⟨items, c, hitems, hc, -⟩
          exact ⟨items, c, hitems, hc, rfl⟩
        · rintro ⟨first, last, items, hsource, hr⟩
          obtain ⟨a, ha⟩ := Option.isSome_iff_exists.mp hr
          exact ⟨a, _, ha, hsource, trivial⟩
    | mappingStart tag =>
      cases levels with
      | zero => exact Reads.tooDeep (P := fun _ _ _ => True) setting s hs
      | succ levels =>
        have hvalue : Reads (rawValueWithin levels) fun _ _ _ => True :=
          ih levels (Nat.lt_succ_self levels)
        refine (ensures_nested_mapping (Q := fun (r : Option RawValue) _ _ => r.isSome = true)
          hevents hkind fun v hv _ => ?_).mono fun r u hu => hu.mono ?_
        · refine Post.bind (accounts_rawEntries hvalue (hv ▸ hs)) fun r u hu => ?_
          have hread : v.Accounts u (∃ entries, v.events = Source.entryEvents entries ++ u.events ∧
              True) := by
            refine hu.2.mono ?_
            rintro ⟨entries, hevents⟩
            exact ⟨entries, hevents, trivial⟩
          refine Post.bind (accounts_closeFrom (R := fun _ _ => True) _ hu.1 hread)
            fun l w hw => hw.mono ?_
          rintro ⟨entries, c, hentries, hc, -⟩
          exact ⟨entries, c, hentries, hc, rfl⟩
        · rintro ⟨first, last, entries, hsource, hr⟩
          obtain ⟨a, ha⟩ := Option.isSome_iff_exists.mp hr
          exact ⟨a, _, ha, hsource, trivial⟩
    | _ => exact Reads.refuse (P := fun _ _ _ => True) _ setting s hs

/-! ## Values with a meaning -/

/-- What is given a meaning is read as a value first. -/
theorem reads_meaning {step : RawValue → BuildM (Option NodeId)} {P : Tree → NodeId → Prop}
    {v : RawValue → Verdict (Option Term)} (hstep : ∀ r, BuildM.Conveys (step r) P (v r))
    (hv : ∀ r, (v r).Reported) (levels : Nat) :
    Reads (do
      let some r ← rawValueWithin levels | return none
      build (step r)) fun _ _ _ => True := by
  intro setting s hs
  refine Post.bind ((reads_rawValueWithin levels setting s hs).and
    (spares_rawValueWithin levels setting s).ensures) fun r u hu => ?_
  obtain ⟨hread, htree⟩ := hu
  cases r with
  | none => exact hread.mono (by simp)
  | some r =>
    refine (((hstep r).accounts (hv r) (htree ▸ hs)).and
      (Stays.build (step r) setting u).ensures).mono fun given w hw => ?_
    refine hread.bind (hw.1.mono ?_)
    rintro ⟨id, hid⟩ ⟨_, source, -, hevents, -⟩
    exact ⟨id, source, hid, by rw [hw.2.events, hevents], trivial⟩

/-- An expression is given a meaning, or an error is reported. -/
theorem reads_expressionWithin (levels : Nat) :
    Reads (expressionWithin levels) fun _ _ _ => True :=
  reads_meaning Resolve.conveys_value Resolve.reported_meaning levels

/-- A condition is given a meaning, or an error is reported. -/
theorem reads_conditionWithin (levels : Nat) :
    Reads (conditionWithin levels) fun _ _ _ => True :=
  reads_meaning Resolve.conveys_condition Resolve.reported_conditionMeaning levels

/-- What is read as an expression mirrors the value. -/
theorem reads_mirrors {m : ParseM (Option NodeId)} {P : Tree → Source → NodeId → Prop}
    {kind : ValueKind} (hm : Reads m P) (hform : Yields m fun t id => t.HasForm kind id)
    (hkind : kind.isExpression = true) :
    Reads m fun t source id => t.Mirrors kind source id :=
  (hm.and_yields hform).imp fun _ _ _ h => .expression hkind h.2

/-- A reader of an untagged container need account for values only where the container starts. -/
theorem reads_plain {body : ParseM (Option α)} {P : Tree → Source → α → Prop}
    (hbody : ∀ setting s e es, s.events = e :: es → e.kind = container.plainStart →
      s.build.tree.Sound → Ensures body setting s fun r u => s.Accounts u (∃ a source, r = some a ∧
        s.events = source.events ++ u.events ∧ P u.build.tree source a)) :
    Reads (plain container body) P := by
  intro setting s hs
  unfold plain atPlain
  rw [Ensures, post_bind]
  refine post_bind_current (fun _ => trivial) fun e es hevents => ?_
  rw [post_pure]
  by_cases hkind : e.kind = container.plainStart
  · simp only [hkind, decide_true, if_true]
    exact hbody setting s e es hevents hkind hs
  · simp only [hkind, decide_false]
    exact Reads.refuse _ setting s hs

/-! ## Literals and lists of texts -/

/-- Adding a node without children reports nothing. -/
theorem ensures_add_leaf {n : Node} (hs : s.build.tree.Sound) (hchildren : n.children = [])
    (htarget : n.target = none) (htyped : s.build.tree.WellTyped n) (l : Location) :
    Ensures (add n l) setting s fun id u => s.Stays u ∧
      u.build.diagnostics = s.build.diagnostics ∧ u.build.tree.node? id = some n := by
  have hmade : s.build.tree.Made s.build.tree [] := (Tree.Grown.refl hs).made
  have hadd : Ensures (add n l) setting s fun id u => u.build.tree.node? id = some n :=
    (post_add_leaf hmade hchildren htarget htyped l).mono (fun _ _ hu => hu.2.2) fun _ _ h => h
  exact (Stays.build _ setting s).ensures.and ((Silent.onTree _ setting s).and hadd)

/-- A scalar is read as a literal to which its text converts. -/
theorem reads_scalar (message : String) (convert : String → Option Literal) :
    Reads (scalar message convert) fun t source id => ∃ span text literal,
      source = .scalar span none text ∧ convert text = some literal ∧
        t.node? id = some (.expression (.literal literal)) := by
  intro setting s hs
  unfold scalar
  refine post_bind_current (fun _ => trivial) fun e es hevents => ?_
  dsimp only
  split
  · next literal h =>
    split at h
    · next text hkind =>
      refine post_bind_here (fun _ => trivial) fun d ds _ => ?_
      rw [post_bind, post_advance, post_map]
      refine (ensures_add_leaf (s := { s with events := s.events.tail })
        (n := .expression (.literal literal)) hs rfl rfl trivial _).mono fun id u hu => ?_
      obtain ⟨hstays, hsilent, hnode⟩ := hu
      obtain ⟨span, hspan⟩ := Source.exists_scalar hkind es
      refine accounts_of_eq hsilent
        ⟨id, .scalar span none text, rfl, ?_, span, text, literal, rfl, h, hnode⟩
      rw [hstays.events, hevents]
      exact hspan
    · cases h
  · exact (accounts_refuse message).mono fun _ _ hu => hu.mono False.elim

/-- A text that is read without an error mirrors its scalar. -/
theorem reads_string : Reads string fun t source id => t.Mirrors .string source id := by
  refine (reads_scalar _ _).imp fun t source id h => ?_
  obtain ⟨span, text, literal, rfl, hliteral, hnode⟩ := h
  cases hliteral
  exact .string hnode

/-- What mirrors its source does so as well when more is built. -/
theorem lasts_mirrors (kind : ValueKind) : Lasts fun t source id => t.Mirrors kind source id :=
  fun _ _ _ _ htu h => h.of_retains htu

/-- A collection that is added over items mirrors the sequence of what the items mirror. -/
theorem accounts_add_collection {kind element : ValueKind} {t : Tree} {v : ParseState}
    {ids : List NodeId} (hkind : kind.element? = some element) (h : t.Made s.build.tree ids)
    (hread : v.Accounts s (∃ first last items,
      v.events = (Source.sequence first last none items).events ++ s.events ∧
        List.Forall₂ (s.build.tree.Mirrors element) items ids)) (l : Location) :
    Ensures (some <$> add (.collection ids) l) setting s fun r u =>
      v.Accounts u (∃ id source, r = some id ∧ v.events = source.events ++ u.events ∧
        u.build.tree.Mirrors kind source id) := by
  have hmade : t.Made s.build.tree ((Node.collection ids).children ++ []) := by
    rw [List.append_nil]
    exact h
  have hadd : Ensures (add (.collection ids) l) setting s fun id u =>
      s.build.tree.Retains u.build.tree ∧ u.build.tree.node? id = some (.collection ids) :=
    (post_add hmade rfl trivial l).mono (fun _ _ hu => ⟨hu.2.1, hu.2.2.2⟩) fun _ _ h => h
  rw [Ensures, post_map]
  refine ((Stays.build _ setting s).ensures.and ((Silent.onTree _ setting s).and hadd)).mono
    fun id u hu => ?_
  obtain ⟨hstays, hsilent, hretains, hnode⟩ := hu
  refine (hread.of_silent hsilent).mono ?_
  rintro ⟨first, last, items, hevents, hitems⟩
  exact ⟨id, _, rfl, hstays.events ▸ hevents,
    .of_forall₂ hkind hnode (hitems.imp fun _ _ h => h.of_retains hretains)⟩

/-- Texts are read one for each item of a sequence, in order. -/
theorem accounts_texts {start : Location} {e : Event} {es : List Event}
    (hevents : s.events = e :: es) (hkind : e.kind = .sequenceStart none)
    (hs : s.build.tree.Sound) :
    Ensures (nested do
      let items ← collect .sequence string
      return (items, ← closeFrom start)) setting s fun ids u =>
      s.Accounts u (∃ first last items,
        s.events = (Source.sequence first last none items).events ++ u.events ∧
          List.Forall₂ (u.build.tree.Mirrors .string) items ids.1) := by
  refine ensures_nested_sequence
    (Q := fun (ids : List NodeId × Location) t items =>
      List.Forall₂ (t.Mirrors .string) items ids.1)
    hevents hkind fun v hv _ => ?_
  refine Post.bind (ensures_collect (lasts_mirrors .string) (takes_scalar _ _) yields_string.grows
    reads_string (hv ▸ hs)) fun ids u hu => ?_
  exact Post.bind (accounts_closeFrom (f := Source.itemEvents)
    (R := fun items t => List.Forall₂ (t.Mirrors .string) items ids) start hu.1 hu.2)
    fun _ _ hw => hw

/-- A list of texts that is read without an error mirrors its sequence. -/
theorem reads_stringListWithin (levels : Nat) :
    Reads (stringListWithin levels) fun t source id => t.Mirrors .stringList source id := by
  refine reads_plain fun setting s e es hevents hkind hs => ?_
  refine post_bind_here (fun _ => trivial) fun d ds _ => ?_
  cases levels with
  | zero => exact (accounts_refuse _).mono fun _ _ hu => hu.mono False.elim
  | succ levels =>
    refine Post.bind ((post_texts _ hs).ensures.and (accounts_texts hevents hkind hs))
      fun items u hu => ?_
    exact accounts_add_collection rfl hu.1.1 hu.2 items.2

end Parse

end InfraModule
