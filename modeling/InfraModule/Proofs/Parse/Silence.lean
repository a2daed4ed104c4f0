import InfraModule.Proofs.Event.Source
import InfraModule.Proofs.Parse.Value
import InfraModule.Proofs.Resolve.Acceptance

/-!
# What readers report

Readers report errors only. What they fail to read they report: the condition that something was
read in full is stated to hold unless an error was reported (`ParseState.Accounts`), so that it can
be carried from one reader to the next. A reader accounts for a value if it is silent only where it
took all events of the value and gave something for it (`ParseM.Reads`).
-/

namespace InfraModule

open ParseM

/-! ## Accounts -/

namespace ParseState

variable {s u v : ParseState} {P Q : Prop}

/-- Only errors were reported in between, and `P` holds if none was. -/
def Accounts (s u : ParseState) (P : Prop) : Prop :=
  ∃ mistakes, s.build.Told mistakes u.build ∧ (∀ d ∈ mistakes, d.severity = .error) ∧
    (mistakes = [] → P)

/-- Where nothing was reported, all has to hold. -/
theorem accounts_of_eq (h : u.build.diagnostics = s.build.diagnostics) (hP : P) :
    s.Accounts u P :=
  ⟨[], by rw [Build.Told, h, List.append_nil], by simp, fun _ => hP⟩

/-- What holds unless an error was reported can be replaced by something weaker. -/
theorem Accounts.mono (h : s.Accounts u P) (hPQ : P → Q) : s.Accounts u Q := by
  obtain ⟨mistakes, htold, herrors, hP⟩ := h
  exact ⟨mistakes, htold, herrors, fun hnil => hPQ (hP hnil)⟩

/-- What is silent in a row is silent at each step. -/
theorem Accounts.bind (h : s.Accounts u P) (h' : u.Accounts v (P → Q)) : s.Accounts v Q := by
  obtain ⟨mistakes, htold, herrors, hP⟩ := h
  obtain ⟨mistakes', htold', herrors', hPQ⟩ := h'
  refine ⟨mistakes ++ mistakes', htold.trans htold', ?_, fun hnil => ?_⟩
  · exact List.forall_mem_append.mpr ⟨herrors, herrors'⟩
  · obtain ⟨hnil, hnil'⟩ := List.append_eq_nil_iff.mp hnil
    exact hPQ hnil' (hP hnil)

/-- What holds unless an error was reported still does when nothing more is reported. -/
theorem Accounts.of_silent (h : s.Accounts u P)
    (h' : v.build.diagnostics = u.build.diagnostics) : s.Accounts v P :=
  h.bind (accounts_of_eq h' id)

/-- What does not hold was reported. -/
theorem Accounts.reported (h : s.Accounts u P) (hP : ¬ P) : ∃ mistakes, mistakes ≠ [] ∧
    u.build.diagnostics.toList = s.build.diagnostics.toList ++ mistakes ∧
      ∀ d ∈ mistakes, d.severity = .error := by
  obtain ⟨mistakes, htold, herrors, hsilent⟩ := h
  exact ⟨mistakes, fun hnil => hP (hsilent hnil), htold, herrors⟩

end ParseState

open ParseState

namespace ParseM

variable {α β σ : Type} {setting : Setting} {s u : ParseState} {e : Event} {es : List Event}
  {container : Container} {m : ParseM α}

/-- What is to hold of the result of a reader if it succeeds. -/
abbrev Ensures (m : ParseM α) (setting : Setting) (s : ParseState) (Q : α → ParseState → Prop) :
    Prop :=
  Post m setting s Q fun _ _ => True

/-- A condition on success and failure is one on success. -/
theorem Post.ensures {Q : α → ParseState → Prop} {E : ParseError → ParseState → Prop}
    (h : Post m setting s Q E) : Ensures m setting s Q :=
  h.mono_error fun _ _ _ => trivial

/-- Two conditions on success hold together. -/
theorem Ensures.and {Q R : α → ParseState → Prop} (h : Ensures m setting s Q)
    (h' : Ensures m setting s R) : Ensures m setting s fun a u => Q a u ∧ R a u :=
  Result.Post.mono (Result.Post.and h h') (fun _ _ h => h) fun _ _ _ => trivial

/-- A condition on success can be replaced by a weaker one. -/
theorem Ensures.mono {Q R : α → ParseState → Prop} (h : Ensures m setting s Q)
    (hQR : ∀ a u, Q a u → R a u) : Ensures m setting s R :=
  Result.Post.mono h hQR fun _ _ h => h

/-! ## Readers that report nothing -/

/-- The reader reports nothing. -/
def Silent (m : ParseM α) : Prop :=
  ∀ setting s, Ensures m setting s fun _ u => u.build.diagnostics = s.build.diagnostics

namespace Silent

/-- To return a value reports nothing. -/
theorem pure (a : α) : Silent (Pure.pure a : ParseM α) := fun _ _ => rfl

/-- Two readers in a row that report nothing report nothing together. -/
theorem bind {f : α → ParseM β} (hm : Silent m) (hf : ∀ a, Silent (f a)) : Silent (m >>= f) :=
  fun setting s => Post.bind (hm setting s) fun a u hu =>
    (hf a setting u).mono fun _ _ hv => hv.trans hu

/-- What a function makes of the result reports nothing more. -/
theorem map (f : α → β) (hm : Silent m) : Silent (f <$> m) :=
  fun setting s => post_map.mpr (hm setting s)

/-- To look at the state reports nothing. -/
theorem get : Silent (MonadState.get : ParseM ParseState) := fun _ _ => rfl

/-- To look at the setting reports nothing. -/
theorem read : Silent (MonadReader.read : ParseM Setting) := fun _ _ => rfl

/-- To move on by an event reports nothing. -/
theorem advance : Silent advance := fun _ _ => rfl

/-- To look at the event at the cursor reports nothing. -/
theorem current : Silent current := by
  intro setting s
  rcases s.nil_or_cons with hs | ⟨e, es, hs⟩
  · exact (post_current_of_nil hs).mpr trivial
  · exact (post_current hs).mpr rfl

/-- To tell the place reports nothing. -/
theorem here : Silent here :=
  current.bind fun _ => read.bind fun _ => pure _

/-- Skipping reports nothing. -/
theorem skip : Silent skip := by
  intro setting s
  rw [Ensures, post_skip]
  split
  · rfl
  · trivial

/-- An operation on the tree reports nothing. -/
theorem onTree (operation : TreeM α) : Silent (build (.onTree operation)) := by
  intro setting s
  rw [Ensures, post_build, BuildM.post_onTree]
  unfold Result.Post
  split
  · rfl
  · trivial

/-- A reader for each element of a list reports nothing if none of them does. -/
theorem forM {f : α → ParseM PUnit} (hf : ∀ a, Silent (f a)) (xs : List α) :
    Silent (xs.forM f) := by
  induction xs with
  | nil => exact pure PUnit.unit
  | cons x xs ih => exact (hf x).bind fun _ => ih

end Silent

/-! ## Readers that refuse -/

/-- After a report nothing has to hold. -/
theorem accounts_report (message : String) (l : Location) :
    Ensures (report message l) setting s fun _ u => s.Accounts u False :=
  ⟨[⟨.error, message, l⟩], Diagnostics.toList_error .., by simp, by simp⟩

/-- After a report, what is silent stays accounted for. -/
theorem accounts_report_bind {m : ParseM α} (message : String) (l : Location) (hm : Silent m) :
    Ensures (do report message l; m) setting s fun _ u => s.Accounts u False :=
  Post.bind (accounts_report message l) fun _ u hu =>
    (hm setting u).mono fun _ _ hv => hu.of_silent hv

/-- After a refusal nothing has to hold. -/
theorem accounts_refuse (message : String) :
    Ensures (refuse message : ParseM (Option α)) setting s fun _ u => s.Accounts u False := by
  unfold refuse
  refine Post.bind (Silent.here setting s) fun l u hu => ?_
  refine (accounts_report_bind message l
    (Silent.skip.bind fun _ => Silent.pure none)).mono fun _ v hv => ?_
  exact (accounts_of_eq hu True.intro).bind (hv.mono fun h _ => h)

/-! ## Readers of values -/

/-- Started in a sound tree, the reader leaves a sound tree that has grown from it. -/
def Grows (m : ParseM α) : Prop :=
  ∀ setting s, s.build.tree.Sound → Post m setting s
    (fun _ u => s.build.tree.Grown u.build.tree) fun _ u => s.build.tree.Grown u.build.tree

/-- Two readers in a row that leave a sound tree grown leave it so together. -/
theorem Grows.bind {f : α → ParseM β} (hm : Grows m) (hf : ∀ a, Grows (f a)) : Grows (m >>= f) :=
  fun setting s hs => Post.bind (hm setting s hs) fun a u hu =>
    (hf a setting u hu.sound).mono (fun _ _ hv => hu.trans hv) fun _ _ hv => hu.trans hv

/-- A reader that leaves the tree as it is leaves it grown. -/
theorem Spares.grows (hm : Spares m) : Grows m := by
  intro setting s hs
  have hrefl {t : Tree} (ht : t = s.build.tree) : s.build.tree.Grown t := by
    rw [ht]
    exact Tree.Grown.refl hs
  exact (hm setting s).mono (fun _ _ hu => hrefl hu) fun _ _ hu => hrefl hu.1

/-- A reader that makes a root as demanded leaves the tree grown. -/
theorem Yields.grows {m : ParseM (Option NodeId)} {P : Tree → NodeId → Prop} (hm : Yields m P) :
    Grows m := fun setting s hs =>
  (hm setting s hs).mono (fun _ _ hu => hu.made.toGrown) fun _ _ hu => hu.grown

/-- Started in a sound tree, the reader reports errors only. Where it reports none, it took the
events of a value, and gives something that `P` relates to the value. -/
def Reads (m : ParseM (Option α)) (P : Tree → Source → α → Prop) : Prop :=
  ∀ setting s, s.build.tree.Sound → Ensures m setting s fun r u =>
    s.Accounts u (∃ a source, r = some a ∧ s.events = source.events ++ u.events ∧
      P u.build.tree source a)

namespace Reads

variable {m : ParseM (Option α)} {P Q : Tree → Source → α → Prop}

/-- What is given can be related to its value by anything weaker. -/
theorem imp (hm : Reads m P) (h : ∀ t source a, P t source a → Q t source a) : Reads m Q :=
  fun setting s hs => (hm setting s hs).mono fun _ _ hu => hu.mono
    fun ⟨a, source, hr, hevents, hP⟩ => ⟨a, source, hr, hevents, h _ _ _ hP⟩

/-- To refuse a value accounts for it. -/
theorem refuse (message : String) : Reads (refuse message : ParseM (Option α)) P := fun _ _ _ =>
  (accounts_refuse message).mono fun _ _ hu => hu.mono False.elim

/-- To pass over a value that is too deep accounts for it. -/
theorem tooDeep : Reads (tooDeep : ParseM (Option α)) P :=
  refuse _

/-- What is built for a value has its form. -/
theorem and_yields {m : ParseM (Option NodeId)} {P : Tree → Source → NodeId → Prop}
    {F : Tree → NodeId → Prop} (hm : Reads m P) (hF : Yields m F) :
    Reads m fun t source id => P t source id ∧ F t id := fun setting s hs => by
  refine ((hm setting s hs).and (hF setting s hs).ensures).mono fun r u hu => ?_
  obtain ⟨haccounts, hgave⟩ := hu
  refine haccounts.mono fun ⟨id, source, hr, hevents, hP⟩ => ?_
  exact ⟨id, source, hr, hevents, hP, hgave.form id hr⟩

end Reads

/-! ## Containers -/

/-- A loop keeps an invariant of its steps, where `I none` holds if a step gives up, and stops at
the end of the container otherwise. -/
theorem ensures_foldUntilClose {step : σ → ParseM (Option σ)} {I : Option σ → ParseState → Prop}
    {G : Prop}
    (hturns : ∀ acc s, Post (step acc) setting s
      (fun r u => s.Turns container u ∧ (r = none → G))
      fun error _ => s.ExcusesElement container error)
    (hstep : ∀ acc s, I (some acc) s → Ensures (step acc) setting s I) (acc : σ)
    (hI : I (some acc) s) : Ensures (foldUntilClose container step acc) setting s
      fun r u => I r u ∧ (AtClose container u ∨ (r = none ∧ G)) := by
  have hinvariant : Ensures (foldUntilClose container step acc) setting s I :=
    post_foldUntilClose_of_turns hturns hstep (fun _ _ _ _ _ => trivial) acc hI
  refine (hinvariant.and (passes_foldUntilClose (fun acc s _ => hturns acc s) acc).ensures).mono
    fun r u hu => ?_
  exact ⟨hu.1, hu.2.2⟩

/-- A loop reports nothing if none of its turns does. -/
theorem Silent.foldUntilClose {step : σ → ParseM (Option σ)} {G : Prop}
    (hturns : ∀ setting acc s, Post (step acc) setting s
      (fun r u => s.Turns container u ∧ (r = none → G))
      fun error _ => s.ExcusesElement container error)
    (hstep : ∀ acc, Silent (step acc)) (acc : σ) : Silent (foldUntilClose container step acc) := by
  intro setting s
  refine (ensures_foldUntilClose (I := fun _ u => u.build.diagnostics = s.build.diagnostics)
    (hturns setting) (fun acc u hu => ?_) acc rfl).mono fun _ _ hu => hu.1
  exact (hstep acc setting u).mono fun _ _ hv => hv.trans hu

/-- Taking the end of a container reports nothing and leaves what has been built. -/
theorem ensures_closeFrom (start : Location) (h : AtClose container s) :
    Ensures (closeFrom start) setting s fun _ u => u.build = s.build ∧
      ∃ c, c.kind = container.close ∧ s.events = c :: u.events := by
  obtain ⟨c, cs, hevents, hc⟩ := h
  exact (post_closeFrom hevents).mpr ⟨rfl, c, hc, hevents⟩

/-- What was read up to the end of a container is read with it. -/
theorem accounts_closeFrom {ι : Type} {f : ι → List Event} {R : ι → Tree → Prop}
    {v : ParseState} (start : Location) (h : AtClose container s)
    (hread : v.Accounts s (∃ x, v.events = f x ++ s.events ∧ R x s.build.tree)) :
    Ensures (closeFrom start) setting s fun _ u => v.Accounts u (∃ x c,
      v.events = f x ++ c :: u.events ∧ c.kind = container.close ∧ R x u.build.tree) := by
  refine (ensures_closeFrom start h).mono fun l u hu => ?_
  obtain ⟨hbuild, c, hc, hevents⟩ := hu
  refine (hread.of_silent (by rw [hbuild])).mono ?_
  rintro ⟨x, hx, hR⟩
  exact ⟨x, c, hevents ▸ hx, hc, hbuild ▸ hR⟩

section Items

/-- What holds of a value and what was read of it still holds where all nodes stay as they are. -/
def Lasts (P : Tree → Source → α → Prop) : Prop :=
  ∀ t u source a, t.Retains u → P t source a → P u source a

variable {P : Tree → Source → α → Prop} (hP : Lasts P)

include hP

/-- A loop over a sequence each step of which adds what it read for an item has in the end what it
read for the items, in order. -/
theorem ensures_foldItems {step : σ → ParseM (Option σ)} {G : Prop} (read : σ → List α)
    (hturns : ∀ acc s, Post (step acc) setting s
      (fun r u => s.Turns .sequence u ∧ (r = none → G))
      fun error _ => s.ExcusesElement .sequence error)
    (hgrows : ∀ acc, Grows (step acc))
    (hstep : ∀ acc s, s.build.tree.Sound → Ensures (step acc) setting s fun r u =>
      s.Accounts u (∃ acc' a source, r = some acc' ∧ read acc' = read acc ++ [a] ∧
        s.events = source.events ++ u.events ∧ P u.build.tree source a))
    (hs : s.build.tree.Sound) (acc : σ) (hacc : read acc = []) :
    Ensures (foldUntilClose .sequence step acc) setting s fun r u =>
      (AtClose .sequence u ∨ (r = none ∧ G)) ∧ s.Accounts u (∃ acc' items, r = some acc' ∧
        s.events = Source.itemEvents items ++ u.events ∧
          List.Forall₂ (P u.build.tree) items (read acc')) := by
  refine (ensures_foldUntilClose (I := fun r u => s.build.tree.Grown u.build.tree ∧
    s.Accounts u (∃ acc' items, r = some acc' ∧ s.events = Source.itemEvents items ++ u.events ∧
      List.Forall₂ (P u.build.tree) items (read acc'))) hturns (fun acc u hu => ?_) acc ?_).mono
    fun r u hu => ⟨hu.2, hu.1.2⟩
  · refine ((hgrows acc setting u hu.1.sound).ensures.and (hstep acc u hu.1.sound)).mono
      fun r v hv => ⟨hu.1.trans hv.1, hu.2.bind (hv.2.mono ?_)⟩
    rintro ⟨acc', a, source, rfl, hread, hevents, ha⟩ ⟨_, items, hacc, hitems, hall⟩
    cases hacc
    refine ⟨acc', items ++ [source], rfl, ?_, ?_⟩
    · rw [hitems, hevents, Source.itemEvents_append, List.append_assoc]
      simp [Source.itemEvents]
    · rw [hread]
      exact List.rel_append (hall.imp fun _ _ h => hP _ _ _ _ hv.1.retains h) (.cons ha .nil)
  · refine ⟨Tree.Grown.refl hs, accounts_of_eq rfl ⟨acc, [], rfl, rfl, ?_⟩⟩
    rw [hacc]
    exact .nil

/-- All that is read of a sequence, in order. -/
theorem ensures_collect {item : ParseM (Option α)} (htakes : Takes item) (hgrows : Grows item)
    (hreads : Reads item P) (hs : s.build.tree.Sound) :
    Ensures (collect .sequence item) setting s fun read u => AtClose .sequence u ∧
      s.Accounts u (∃ items, s.events = Source.itemEvents items ++ u.events ∧
        List.Forall₂ (P u.build.tree) items read) := by
  unfold collect
  refine Post.bind (ensures_foldItems hP (G := False) id (fun acc s => ?_) (fun acc => ?_)
    (fun acc s hs => ?_) hs [] rfl) fun r u hu => ?_
  · exact (htakes setting s).bind fun r u hu => ⟨hu, by simp⟩
  · exact fun setting s hs => (hgrows setting s hs).bind fun _ _ hu => hu
  · refine Post.bind (hreads setting s hs) fun r u hu => hu.mono ?_
    rintro ⟨a, source, rfl, hevents, ha⟩
    exact ⟨acc ++ [a], a, source, rfl, rfl, hevents, ha⟩
  · refine ⟨by simpa using hu.1, hu.2.mono ?_⟩
    rintro ⟨acc, items, rfl, hevents, hall⟩
    exact ⟨items, hevents, hall⟩

end Items

/-! ## Nesting -/

/-- What is read one level deeper is read behind the event that opens it. -/
theorem ensures_nested {body : ParseM β} {R : β → Tree → List Event → Prop}
    (hs : s.events = e :: es)
    (hbody : ∀ v : ParseState, v.build = s.build → v.events = es →
      Ensures body setting v fun r u => v.Accounts u (R r u.build.tree u.events)) :
    Ensures (nested body) setting s fun r u => s.Accounts u (R r u.build.tree u.events) :=
  post_nested.mpr (hbody { s with events := s.events.tail, depth := s.depth + 1 } rfl
    (by rw [hs]; rfl))

/-- What is read in a sequence up to its end is read of the sequence. -/
theorem ensures_nested_sequence {body : ParseM β} {tag : Option String}
    {Q : β → Tree → List Source → Prop} (hs : s.events = e :: es)
    (he : e.kind = .sequenceStart tag)
    (hbody : ∀ v : ParseState, v.build = s.build → v.events = es → Ensures body setting v
      fun r u => v.Accounts u (∃ items c, v.events = Source.itemEvents items ++ c :: u.events ∧
        c.kind = .sequenceEnd ∧ Q r u.build.tree items)) :
    Ensures (nested body) setting s fun r u => s.Accounts u (∃ first last items,
      s.events = (Source.sequence first last tag items).events ++ u.events ∧
        Q r u.build.tree items) := by
  refine (ensures_nested (R := fun r t rest => ∃ items c,
    es = Source.itemEvents items ++ c :: rest ∧ c.kind = .sequenceEnd ∧ Q r t items) hs
    fun v hv hes => hes ▸ hbody v hv hes).mono fun r u hu => hu.mono ?_
  rintro ⟨items, c, hevents, hc, hQ⟩
  obtain ⟨first, last, hsource⟩ := Source.exists_sequence he hc items u.events
  exact ⟨first, last, items, by rw [hs, hevents, hsource], hQ⟩

/-- What is read in a mapping up to its end is read of the mapping. -/
theorem ensures_nested_mapping {body : ParseM β} {tag : Option String}
    {Q : β → Tree → List (Source × Source) → Prop} (hs : s.events = e :: es)
    (he : e.kind = .mappingStart tag)
    (hbody : ∀ v : ParseState, v.build = s.build → v.events = es → Ensures body setting v
      fun r u => v.Accounts u (∃ entries c,
        v.events = Source.entryEvents entries ++ c :: u.events ∧ c.kind = .mappingEnd ∧
          Q r u.build.tree entries)) :
    Ensures (nested body) setting s fun r u => s.Accounts u (∃ first last entries,
      s.events = (Source.mapping first last tag entries).events ++ u.events ∧
        Q r u.build.tree entries) := by
  refine (ensures_nested (R := fun r t rest => ∃ entries c,
    es = Source.entryEvents entries ++ c :: rest ∧ c.kind = .mappingEnd ∧ Q r t entries) hs
    fun v hv hes => hes ▸ hbody v hv hes).mono fun r u hu => hu.mono ?_
  rintro ⟨entries, c, hevents, hc, hQ⟩
  obtain ⟨first, last, hsource⟩ := Source.exists_mapping he hc entries u.events
  exact ⟨first, last, entries, by rw [hs, hevents, hsource], hQ⟩

end ParseM

end InfraModule
