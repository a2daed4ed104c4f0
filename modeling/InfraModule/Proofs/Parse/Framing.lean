import InfraModule.Proofs.Parse.Freshness

/-!
# The frame of a document

A stream frames any number of documents (`Event.Stream`). A module is read from a stream of exactly
one, whatever the document holds; any other number fails at the first event that is too many or that
is missing. What is cut off before its end is not accepted: wherever the cut falls, the reader comes
to the end of the events (`ParseM.Reaches`).
-/

namespace InfraModule

open ParseM ParseState

namespace Event

variable {n : Nat} {es rest : List Event}

/-- So many documents stand one after the other, each with one well-formed value, and `rest` follows
them. -/
inductive Documents : Nat → List Event → List Event → Prop
  | nil {rest : List Event} : Documents 0 rest rest
  | cons {n : Nat} {start stop : Event} {es es' rest : List Event}
      (hstart : start.kind = .documentStart) (hvalue : Value es (stop :: es'))
      (hstop : stop.kind = .documentEnd) (hs : Documents n es' rest) :
      Documents (n + 1) (start :: es) rest

/-- The events are those of a stream of so many documents. -/
inductive Stream (n : Nat) : List Event → Prop
  | intro {first last : Event} {es : List Event} (hfirst : first.kind = .streamStart)
      (hes : Documents n es [last]) (hlast : last.kind = .streamEnd) : Stream n (first :: es)

end Event

namespace ParseM

variable {α β : Type} {setting : Setting} {s u : ParseState} {e : Event}
  {es lost rest rest' : List Event} {kind : EventKind}

/-- The reader comes to `rest` where `lost` would follow the events that are left. It stops before
only at the end of those events, and only if something was lost. -/
def Reaches (m : ParseM α) (setting : Setting) (s : ParseState) (lost rest : List Event) : Prop :=
  Post m setting s (fun _ u => u.events ++ lost = rest ∧ u.build.tree.Sound) fun error _ =>
    error = .unexpectedEnd ∧ lost ≠ []

/-- Two readers in a row come where the second comes from where the first came. -/
theorem Reaches.bind {m : ParseM α} {f : α → ParseM β} (hm : Reaches m setting s lost rest)
    (hf : ∀ a u, u.events ++ lost = rest → u.build.tree.Sound →
      Reaches (f a) setting u lost rest') : Reaches (m >>= f) setting s lost rest' :=
  Post.bind hm fun a u hu => hf a u hu.1 hu.2

/-- Where nothing is lost, the reader comes to its end. -/
theorem Reaches.post {m : ParseM α} (h : Reaches m setting s [] rest)
    {E : ParseError → ParseState → Prop} :
    Post m setting s (fun _ u => u.events = rest ∧ u.build.tree.Sound) E :=
  h.mono (fun _ u hu => ⟨by simpa using hu.1, hu.2⟩) fun _ _ he => (he.2 rfl).elim

/-- Without events nothing can be expected. -/
theorem post_expect_of_nil {Q : Unit → ParseState → Prop} {E : ParseError → ParseState → Prop}
    (hs : s.events = []) : Post (expect kind) setting s Q E ↔ E .unexpectedEnd s := by
  unfold expect
  rw [post_bind, post_current_of_nil hs]

/-- An event of any other kind is named in the failure, and where it starts. -/
theorem post_expect_of_ne {Q : Unit → ParseState → Prop} {E : ParseError → ParseState → Prop}
    (hs : s.events = e :: es) (he : e.kind ≠ kind) :
    Post (expect kind) setting s Q E ↔ E (.unexpectedEvent kind e.kind e.start) s := by
  unfold expect
  rw [post_bind, post_current hs]
  simp only [he, if_false]
  rw [post_bind, post_throw]

/-- An expected event is taken, or it was lost. -/
theorem reaches_expect (ht : s.build.tree.Sound) (hs : s.events ++ lost = e :: rest)
    (he : e.kind = kind) : Reaches (expect kind) setting s lost rest := by
  rcases s.nil_or_cons with hnil | ⟨d, ds, hcons⟩
  · -- The event expected is the first that was lost.
    refine (post_expect_of_nil hnil).mpr ⟨rfl, ?_⟩
    rw [hnil, List.nil_append] at hs
    simp [hs]
  · rw [hcons, List.cons_append, List.cons.injEq] at hs
    exact (post_expect hcons (hs.1 ▸ he)).mpr ⟨hs.2, ht⟩

end ParseM

namespace Parse

variable {setting : Setting} {s : ParseState} {first start stop : Event}
  {es lost rest : List Event}

/-- A value of any kind is taken as a whole, or a part of it was lost. -/
theorem reaches_valueOf (kind : ValueKind) (ht : s.build.tree.Sound)
    (hvalue : Event.Value (s.events ++ lost) rest) :
    Reaches (valueOf kind) setting s lost rest := by
  refine ((takes_valueOf kind setting s).and (yields_valueOf kind setting s ht)).mono
    (fun _ u hu => ⟨hu.1.append_eq hvalue, hu.2.made.sound⟩) fun error u hu => ?_
  -- The tree is not misused, so what excuses the failure is the loss.
  rcases hu.1 lost rest hvalue with ⟨te, hte⟩ | hlost
  · exact (hu.2.error te hte).elim
  · exact hlost

/-- The frame of a stream and of its document is opened, or a part of it was lost. -/
theorem reaches_start (ht : s.build.tree.Sound) (hs : s.events ++ lost = first :: start :: rest)
    (hfirst : first.kind = .streamStart) (hstart : start.kind = .documentStart) :
    Reaches Parse.start setting s lost rest :=
  (reaches_expect ht hs hfirst).bind fun _ _ hu ht => reaches_expect ht hu hstart

/-- The frame is closed, or a part of it was lost. -/
theorem reaches_finishDocument (ht : s.build.tree.Sound)
    (hs : s.events ++ lost = stop :: first :: rest) (hstop : stop.kind = .documentEnd)
    (hlast : first.kind = .streamEnd) : Reaches finishDocument setting s lost rest :=
  (reaches_expect ht hs hstop).bind fun _ _ hu ht => reaches_expect ht hu hlast

end Parse

namespace Document

open Parse

variable {n : Nat} {setting : Setting} {events es es' lost : List Event}
  {first start stop last : Event} {error : ParseError}

/-- The first document of a stream is read up to its end. -/
theorem reaches_root (setting : Setting) (hs : events ++ lost = first :: start :: es)
    (hfirst : first.kind = .streamStart) (hstart : start.kind = .documentStart)
    (hvalue : Event.Value es es') :
    Reaches (do Parse.start; declaration (.concrete .module)) setting { events } lost es' :=
  (reaches_start Tree.sound_empty hs hfirst hstart).bind fun _ _ hu ht =>
    reaches_valueOf _ ht (hu ▸ hvalue)

/-- Reading a module is opening the frame and reading a declaration, and then closing the frame. -/
theorem readModule_eq : readModule = (do
    let root ← (do Parse.start; declaration (.concrete .module))
    finishDocument
    return root) := by
  simp only [readModule, bind_assoc]

/-- The one document of a stream is read up to the end of the stream. -/
theorem reaches_readModule (setting : Setting) (hs : events ++ lost = first :: start :: es)
    (hfirst : first.kind = .streamStart) (hstart : start.kind = .documentStart)
    (hvalue : Event.Value es [stop, last]) (hstop : stop.kind = .documentEnd)
    (hlast : last.kind = .streamEnd) : Reaches readModule setting { events } lost [] := by
  rw [readModule_eq]
  refine (reaches_root setting hs hfirst hstart hvalue).bind fun root u hu ht => ?_
  exact (reaches_finishDocument ht hu hstop hlast).bind fun _ v hv ht => ⟨hv, ht⟩

/-- A failure to read the module is one to read the document. -/
theorem ofEvents_of_error (h : Post readModule setting { events } (fun _ _ => False)
    fun e _ => e = error) : ofEvents setting events = .error error := by
  unfold ofEvents
  split
  · next e u he => rw [h.of_error he]
  · next root u hok => exact (h.of_ok hok).elim

/-- Where the module is read, so is the document. -/
theorem exists_ofEvents (h : Post readModule setting { events } (fun _ u => u.build.tree.Sound)
    fun _ _ => False) : ∃ d, ofEvents setting events = .ok d := by
  obtain ⟨root, u, hok, ht⟩ := h.exists_ok fun _ _ h => h
  obtain ⟨unresolved, v, hlink⟩ := exists_link setting.options root ht
  unfold ofEvents
  split
  · next e w herror => cases hok.symm.trans herror
  · next root' w hok' =>
    cases hok.symm.trans hok'
    split
    · next e w herror => cases hlink.symm.trans herror
    · exact ⟨_, rfl⟩

/-! ## Numbers of documents -/

/-- Without a document the end of the stream stands where its start should. -/
theorem ofEvents_of_none (setting : Setting) (hfirst : first.kind = .streamStart)
    (hlast : last.kind = .streamEnd) :
    ofEvents setting [first, last]
      = .error (.unexpectedEvent .documentStart .streamEnd last.start) := by
  refine ofEvents_of_error ?_
  unfold readModule Parse.start
  simp only [post_bind]
  refine (post_expect rfl hfirst).mpr ?_
  exact (post_expect_of_ne rfl (by simp [hlast])).mpr (by rw [hlast])

/-- A second document stands where the end of the stream should. -/
theorem ofEvents_of_second (setting : Setting) (hfirst : first.kind = .streamStart)
    (hstart : start.kind = .documentStart) {next : Event}
    (hvalue : Event.Value es (stop :: next :: es')) (hstop : stop.kind = .documentEnd)
    (hnext : next.kind = .documentStart) : ofEvents setting (first :: start :: es)
      = .error (.unexpectedEvent .streamEnd .documentStart next.start) := by
  refine ofEvents_of_error ?_
  rw [readModule_eq]
  have hroot := reaches_root setting (List.append_nil _) hfirst hstart hvalue
  refine Post.bind hroot.post fun root u hu => ?_
  unfold finishDocument
  simp only [post_bind]
  refine (post_expect hu.1 hstop).mpr ?_
  exact (post_expect_of_ne rfl (by simp [hnext])).mpr (by rw [hnext])

/-- A document that was cut off is not accepted. -/
theorem ofEvents_of_lost (hlost : lost ≠ [])
    (h : Reaches readModule setting { events } lost []) :
    ofEvents setting events = .error .unexpectedEnd :=
  ofEvents_of_error (h.mono (fun _ _ hu => hlost (List.append_eq_nil_iff.mp hu.1).2)
    fun _ _ he => he.1)

/-- Whatever documents hold, a module is read from a stream of exactly one. Of none, the end of the
stream is found where a document should start; of several, the start of the second where the stream
should end. And what was cut off a stream of one is missed wherever the cut falls. -/
theorem framing (setting : Setting) (h : Event.Stream n events) :
    ((∃ d, ofEvents setting events = .ok d) ↔ n = 1) ∧
    (n = 0 → ∃ e ∈ events, e.kind = .streamEnd ∧ ofEvents setting events
      = .error (.unexpectedEvent .documentStart .streamEnd e.start)) ∧
    (2 ≤ n → ∃ e ∈ events, e.kind = .documentStart ∧ ofEvents setting events
      = .error (.unexpectedEvent .streamEnd .documentStart e.start)) ∧
    (n = 1 → ∀ cut, cut <+: events → cut ≠ events →
      ofEvents setting cut = .error .unexpectedEnd) := by
  obtain ⟨hfirst, hes, hlast⟩ := h
  cases hes with
  | nil =>
    have herror := ofEvents_of_none setting hfirst hlast
    refine ⟨?_, fun _ => ⟨_, by simp, hlast, herror⟩, by omega, by omega⟩
    simp [herror]
  | cons hstart hvalue hstop hs =>
    cases hs with
    | nil =>
      refine ⟨?one, by omega, by omega, fun _ cut hcut hne => ?cut⟩
      case one =>
        have hreads := reaches_readModule setting (List.append_nil _) hfirst hstart
          hvalue hstop hlast
        simpa using exists_ofEvents (hreads.post.mono (fun _ _ hu => hu.2) fun _ _ h => h)
      case cut =>
        obtain ⟨lost, hlost⟩ := hcut
        refine ofEvents_of_lost ?_ (reaches_readModule setting hlost hfirst hstart hvalue hstop
          hlast)
        rintro rfl
        exact hne (by simpa using hlost)
    | cons hnext hvalue' hstop' hs' =>
      have herror := ofEvents_of_second setting hfirst hstart hvalue hstop hnext
      refine ⟨?_, by omega, fun _ => ⟨_, ?_, hnext, herror⟩, by omega⟩
      · simp [herror]
      · -- What stands behind the first value is among the events.
        have hsuffix := Event.suffix_of_skipValue (Or.inl hvalue.skipValue)
        have hmem := hsuffix.mem (List.mem_cons_of_mem _ List.mem_cons_self)
        exact List.mem_cons_of_mem _ (List.mem_cons_of_mem _ hmem)

/-- A stream of one document that holds a text is read; without its last event it is not. -/
theorem framing_of_text :
    let events := [EventKind.streamStart, .documentStart, .scalar "v" none, .documentEnd,
      .streamEnd].map (Event.mk · default default)
    Event.Stream 1 events ∧ (∃ d, ofEvents ⟨"m.yml", {}⟩ events = .ok d) ∧
      ofEvents ⟨"m.yml", {}⟩ events.dropLast = .error .unexpectedEnd := by
  intro events
  have hstream : Event.Stream 1 events := .intro rfl (.cons rfl (.scalar rfl) rfl .nil) rfl
  obtain ⟨hone, -, -, hcut⟩ := framing ⟨"m.yml", {}⟩ hstream
  exact ⟨hstream, hone.mpr rfl, hcut rfl _ (List.dropLast_prefix events) (by decide)⟩

end Document

end InfraModule
