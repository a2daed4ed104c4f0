import InfraModule.Proofs.Parse.Mapping
import InfraModule.Proofs.Parse.Placement
import InfraModule.Proofs.Tree.Alike
import InfraModule.Proofs.Tree.Place

/-!
# The order of keys

In what order the entries of a declaration's mapping stand does not matter, as long as the first one
is the same and no key comes twice (`Parse.declaration_of_reordered`). Each value is read as it is
alone, so that behind whatever it stands the subtree it gives is alike (`Parse.rel_valueFor?`) and
the same is told of it (`Parse.told_afterEntries`).
-/

namespace InfraModule

open ParseM

/-- What is told behind what was told before is told in between. -/
theorem Build.told_tell (b : Build) (ds : List Diagnostic) : b.Told ds (b.tell ds) := by
  simp [Told, tell, Diagnostics.toList]

/-- What was told alone is told in between when it is placed behind what was told before. -/
theorem Build.told_graft (b c : Build) : b.Told c.diagnostics.toList (b.graft c) := by
  simp [Told, graft, Diagnostics.toList]

namespace Parse

/-! ## Distinct keys -/

/-- All keys are literal, and no two are spelt alike. -/
structure Distinct (entries : List (Source × Source)) : Prop where
  /-- The keys are literal. -/
  literal : ∀ entry ∈ entries, entry.1.isScalar = true
  /-- No two keys are spelt alike. -/
  nodup : (entries.map (·.1.text)).Nodup

namespace Distinct

variable {entries entries' : List (Source × Source)} {entry : Source × Source}

/-- No keys are distinct. -/
theorem nil : Distinct [] where
  literal _ h := absurd h List.not_mem_nil
  nodup := List.nodup_nil

/-- The scalar keys of entries with distinct keys are all their keys. -/
theorem scalarKeys_eq (h : Distinct entries) : scalarKeys entries = entries.map (·.1.text) := by
  rw [scalarKeys, List.filter_eq_self.mpr h.literal]

/-- Keys stay distinct in another order. -/
theorem of_perm (h : Distinct entries) (hperm : entries'.Perm entries) : Distinct entries' where
  literal entry hentry := h.literal entry (hperm.subset hentry)
  nodup := (hperm.map _).nodup_iff.mpr h.nodup

/-- In whatever order entries stand, they have the same keys. -/
theorem mem_scalarKeys_iff (h : Distinct entries) (hperm : entries'.Perm entries) {key : String} :
    key ∈ scalarKeys entries' ↔ key ∈ scalarKeys entries := by
  rw [h.scalarKeys_eq, (h.of_perm hperm).scalarKeys_eq, (hperm.map _).mem_iff]

/-- Without the first entry the keys stay distinct. -/
theorem of_cons (h : Distinct (entry :: entries)) : Distinct entries where
  literal other hother := h.literal other (List.mem_cons_of_mem _ hother)
  nodup := (List.nodup_cons.mp h.nodup).2

/-- Keys that did not come before the first entry nor in it do not come before the others. -/
theorem notMem_seen {seen : List String} (h : Distinct (entry :: entries))
    (hseen : ∀ e ∈ entry :: entries, e.1.text ∉ seen) :
    ∀ e ∈ entries, e.1.text ∉ seen ++ scalarKeys [entry] := by
  intro e he
  have hliteral := h.literal entry List.mem_cons_self
  have hne : e.1.text ≠ entry.1.text := fun heq =>
    (List.nodup_cons.mp h.nodup).1 (List.mem_map.mpr ⟨e, he, heq⟩)
  simpa [scalarKeys, hliteral, hne] using hseen e (List.mem_cons_of_mem _ he)

end Distinct

section Entries

variable {setting : Setting} {depth : Nat} {kind : Kind} {key : String} {seen : List String}
  {b : Build} {entries entries' : List (Source × Source)} {entry : Source × Source}

/-! ## Entries one by one -/

/-- What is told of an entry whose key did not come before. -/
def entryTold (setting : Setting) (depth : Nat) (kind : Kind) (entry : Source × Source) :
    List Diagnostic :=
  match kind.property? entry.1.text with
  | none => [entry.1.mistake setting.file s!"unexpected key '{entry.1.text}'"]
  | some known => (alone setting depth known.value entry.2).2.diagnostics.toList

/-- What is told of an entry with a new key does not depend on the keys before it. -/
theorem told_afterEntry (hliteral : entry.1.isScalar = true) (hnew : entry.1.text ∉ seen) :
    b.Told (entryTold setting depth kind entry) (afterEntry setting depth kind seen b entry) := by
  unfold entryTold afterEntry
  dsimp only
  rw [if_pos hliteral]
  cases kind.property? entry.1.text with
  | none => exact b.told_tell _
  | some known =>
    dsimp only
    rw [if_neg hnew]
    exact b.told_graft _

/-- What is told of entries is told of each of them. -/
theorem told_afterEntries (h : Distinct entries) (hseen : ∀ e ∈ entries, e.1.text ∉ seen) :
    b.Told (entries.flatMap (entryTold setting depth kind))
      (afterEntries setting depth kind seen b entries) := by
  induction entries generalizing seen b with
  | nil => exact b.told_refl
  | cons entry entries ih =>
    have hfirst : b.Told (entryTold setting depth kind entry) _ :=
      told_afterEntry (h.literal entry List.mem_cons_self) (hseen entry List.mem_cons_self)
    exact hfirst.trans (ih h.of_cons (h.notMem_seen hseen))

/-- Behind what was built, an entry adds nodes and touches no others. -/
theorem extends_afterEntry (hb : b.tree.Sound) :
    (afterEntry setting depth kind seen b entry).tree.Sound ∧
      b.tree.Extends (afterEntry setting depth kind seen b entry).tree := by
  have hrefl : b.tree.Sound ∧ b.tree.Extends b.tree := ⟨hb, .refl b.tree⟩
  unfold afterEntry
  dsimp only
  split
  · split
    · exact hrefl
    · next known _ =>
      split
      · exact hrefl
      · exact ⟨sound_graft_alone hb setting depth known.value entry.2, b.tree.extends_graft _⟩
  · exact hrefl

/-- Entries that are placed behind a sound tree leave a sound tree that extends it. -/
theorem extends_afterEntries (hb : b.tree.Sound) :
    (afterEntries setting depth kind seen b entries).tree.Sound ∧
      b.tree.Extends (afterEntries setting depth kind seen b entries).tree := by
  induction entries generalizing seen b with
  | nil => exact ⟨hb, .refl b.tree⟩
  | cons entry entries ih =>
    have hfirst : (afterEntry setting depth kind seen b entry).tree.Sound ∧ b.tree.Extends _ :=
      extends_afterEntry hb
    exact ⟨(ih hfirst.1).1, hfirst.2.trans (ih hfirst.1).2⟩

/-! ## Values -/

/-- For a key that a kind does not have no node is given. -/
theorem valueFor?_of_unknown (h : kind.property? key = none) :
    valueFor? setting depth kind key seen b entries = none := by
  induction entries generalizing seen b with
  | nil => rfl
  | cons entry entries ih =>
    rw [valueFor?, h, ih]
    split <;> rfl

/-- What an entry gives for its key is what its value comes to alone, behind what was built before
the entry. -/
theorem exists_valueFor?_of_mem (setting : Setting) (depth : Nat) (hb : b.tree.Sound)
    (h : Distinct entries) (hseen : ∀ e ∈ entries, e.1.text ∉ seen) (hentry : entry ∈ entries)
    {known : Property} (hknown : kind.property? entry.1.text = some known) :
    ∃ t : Tree, valueFor? setting depth kind entry.1.text seen b entries
        = (alone setting depth known.value entry.2).1.map t.shift ∧
      (alone setting depth known.value entry.2).2.tree.Embeds
        (afterEntries setting depth kind seen b entries).tree t.shift := by
  induction entries generalizing seen b with
  | nil => cases hentry
  | cons first entries ih =>
    have hliteral := h.literal first List.mem_cons_self
    have hfirst : (afterEntry setting depth kind seen b first).tree.Sound :=
      (extends_afterEntry hb).1
    rcases List.mem_cons.mp hentry with rfl | hmem
    · refine ⟨b.tree, ?_, ?_⟩
      · rw [valueFor?, if_pos ⟨hliteral, rfl⟩, hknown, Option.map_eq_bind]
        rfl
      · have hread : afterEntry setting depth kind seen b entry
            = b.graft (alone setting depth known.value entry.2).2 := by
          unfold afterEntry
          dsimp only
          rw [if_pos hliteral, hknown]
          exact if_neg (hseen entry List.mem_cons_self)
        rw [afterEntries, hread]
        rw [hread] at hfirst
        exact (Tree.embeds_graft b.tree _).trans (extends_afterEntries hfirst).2.embeds
    · have hne : ¬ (first.1.isScalar = true ∧ first.1.text = entry.1.text) := fun heq =>
        (List.nodup_cons.mp h.nodup).1 (List.mem_map.mpr ⟨entry, hmem, heq.2.symm⟩)
      rw [valueFor?, if_neg hne]
      exact ih hfirst h.of_cons (h.notMem_seen hseen) hmem

/-- In whatever order entries stand, what is given for a key is alike. -/
theorem rel_valueFor? {b' : Build} {u u' : Tree} (hb : b.tree.Sound) (hb' : b'.tree.Sound)
    (h : Distinct entries) (hperm : entries'.Perm entries)
    (hu : (afterEntries setting depth kind [] b entries).tree.Embeds u id)
    (hu' : (afterEntries setting depth kind [] b' entries').tree.Embeds u' id) (key : String) :
    Option.Rel (u.Alike u') (valueFor? setting depth kind key [] b entries)
      (valueFor? setting depth kind key [] b' entries') := by
  have h' := h.of_perm hperm
  by_cases hkey : key ∈ scalarKeys entries
  · rw [h.scalarKeys_eq] at hkey
    obtain ⟨entry, hentry, rfl⟩ := List.mem_map.mp hkey
    cases hknown : kind.property? entry.1.text with
    | none =>
      rw [valueFor?_of_unknown hknown, valueFor?_of_unknown hknown]
      exact .none
    | some known =>
      have hmem := hperm.symm.subset hentry
      obtain ⟨t, hvalue, hembeds⟩ :=
        exists_valueFor?_of_mem setting depth hb h (fun _ _ => List.not_mem_nil) hentry hknown
      obtain ⟨t', hvalue', hembeds'⟩ :=
        exists_valueFor?_of_mem setting depth hb' h' (fun _ _ => List.not_mem_nil) hmem hknown
      have hgave := gave_alone setting depth known.value entry.2
      rw [hvalue, hvalue']
      cases hgiven : (alone setting depth known.value entry.2).1 with
      | none => exact .none
      | some id =>
        rw [hgiven] at hgave
        have hid := (hgave.made.root id (by simp)).1
        exact .some ((hembeds.trans hu).alike hgave.made.sound (hembeds'.trans hu') hid)
  · rw [valueFor?_of_notMem hkey, valueFor?_of_notMem (mt (h.mem_scalarKeys_iff hperm).mp hkey)]
    exact .none

end Entries

section Mapping

variable {setting : Setting} {type : DeclarationType} {depth : Nat} {kind : Kind} {b : Build}
  {rest : List Event} {b₀ : Build} {draft : Draft} {entries entries' : List (Source × Source)}
  {key value : Source} {c : Event} {start l : Location}

/-! ## Declarations -/

/-- A declaration of a kind comes from entries and stands at a location, as does a version that it
is given. -/
structure DeclaresAt (setting : Setting) (depth : Nat) (kind : Kind) (start l : Location)
    (b : Build) (entries : List (Source × Source)) (x : NodeId) (u : Build) : Prop
    extends Declares setting depth kind start b entries x u where
  /-- What the entries come to stays where it is. -/
  embeds : (afterEntries setting depth kind [] b entries).tree.Embeds u.tree id
  /-- The declaration stands at the location. -/
  location : u.tree.location? x = some l
  /-- So does a version that it is given. -/
  version : kind = .module → "Version" ∉ scalarKeys entries → u.tree.VersionAt l x

/-- A draft with a keyword, if its kind has one, becomes a declaration that stands where the draft
is finished. -/
theorem Draft.Follows.finishAt (h : draft.Follows setting depth type kind b₀ entries b)
    (hkeyword : ∀ name, kind.keyword = some name →
      (valueFor? setting depth kind name [] b₀ entries).isSome = true) (start l : Location) :
    ∃ x u, Parse.finish draft start l setting ⟨rest, b, depth⟩ = .ok (some x) ⟨rest, u, depth⟩ ∧
      DeclaresAt setting depth kind start l b₀ entries x u := by
  obtain ⟨x, u, hok, hdeclares⟩ := h.finish hkeyword l
  obtain ⟨hplaces, hstands⟩ := (placed_finish h.typed.made.sound draft start l).of_ok hok
  obtain ⟨hlocation, hversion⟩ := hstands x rfl
  refine ⟨x, u, hok, hdeclares, ?_, hlocation, fun hmodule hnew => hversion ⟨?_, fun hseen => ?_⟩⟩
  · exact Tree.embeds_of_retains hdeclares.retains (h.build ▸ hplaces.kept)
  · exact h.chosen.trans hmodule
  · exact hnew ((h.seen _).mp hseen).1

/-- A version that a module is given is the one of the options, and stands where it does. -/
theorem DeclaresAt.exists_version {x : NodeId} {u : Build} {d : Declaration}
    (h : DeclaresAt setting depth .module start l b entries x u)
    (hnew : "Version" ∉ scalarKeys entries) (hnode : u.tree.node? x = some (.declaration d)) :
    ∃ version, d.bound? "Version" = some version ∧ u.tree.location? version = some l ∧
      u.tree.node? version
        = some (.expression (.literal (.string setting.options.defaultModuleVersion))) := by
  obtain ⟨d₁, hnode₁, hkind, hbound⟩ := h.declaration
  obtain ⟨d₂, version₂, hnode₂, hproperty, hlocation⟩ := h.version rfl hnew
  cases hnode.symm.trans hnode₁
  cases hnode.symm.trans hnode₂
  have hversion := hbound "Version"
  rw [if_pos ⟨rfl, hnew, rfl⟩] at hversion
  obtain ⟨version, hsome, hversion⟩ := hversion
  have hkeyword : ¬ d.kind.isKeyword "Version" = true := by
    rw [hkind]
    decide
  obtain rfl : version = version₂ := by
    rw [Declaration.bound?, if_neg hkeyword, hproperty] at hsome
    exact (Option.some_inj.mp hsome).symm
  exact ⟨version, hsome, hlocation, hversion⟩

/-- In whatever order entries stand, the declarations that come from them are alike. -/
theorem DeclaresAt.alike {b' u u' : Build} {x x' : NodeId} (hb : b.tree.Sound)
    (hb' : b'.tree.Sound) (hentries : Distinct entries) (hperm : entries'.Perm entries)
    (h : DeclaresAt setting depth kind start l b entries x u)
    (h' : DeclaresAt setting depth kind start l b' entries' x' u') :
    u.tree.Alike u'.tree x x' := by
  obtain ⟨d, hnode, hkind, hbound⟩ := h.declaration
  obtain ⟨d', hnode', hkind', hbound'⟩ := h'.declaration
  refine (Tree.alike_declaration_iff hnode hnode').mpr
    ⟨h'.location.trans h.location.symm, hkind'.trans hkind.symm, fun key => ?_⟩
  have hkey := hbound key
  have hkey' := hbound' key
  by_cases hversion : kind = .module ∧ "Version" ∉ scalarKeys entries ∧ key = "Version"
  · obtain ⟨rfl, hnew, rfl⟩ := hversion
    obtain ⟨version, hsome, hlocation, hversion⟩ := h.exists_version hnew hnode
    obtain ⟨version', hsome', hlocation', hversion'⟩ :=
      h'.exists_version (mt (hentries.mem_scalarKeys_iff hperm).mp hnew) hnode'
    rw [hsome, hsome']
    exact .some (.of_forall₂ hversion hversion' (hlocation'.trans hlocation.symm) .nil)
  · rw [if_neg hversion] at hkey
    rw [← hentries.mem_scalarKeys_iff hperm] at hversion
    rw [if_neg hversion] at hkey'
    rw [hkey, hkey']
    exact rel_valueFor? hb hb' hentries hperm h.embeds h'.embeds key

/-- What is told of a declaration is told of its entries one by one, and of the mandatory keys that
do not occur. -/
theorem Declares.told_entries {x : NodeId} {u : Build} (hentries : Distinct entries)
    (h : Declares setting depth kind start b entries x u) :
    b.Told (entries.flatMap (entryTold setting depth kind) ++
      missingMistakes (kind.mandatoryKeys.filter (· ∉ scalarKeys entries)) start) u :=
  (told_afterEntries hentries fun _ _ => List.not_mem_nil).trans h.told

/-! ## Readers -/

/-- What two readers gave that started behind the same is alike, and they told the same mistakes in
some order. -/
structure Tallies (b : Build) (given : Option NodeId) (u : Build) (given' : Option NodeId)
    (u' : Build) : Prop where
  /-- Both gave what is alike, or nothing. -/
  alike : Option.Rel (u.tree.Alike u'.tree) given given'
  /-- Both told the same. -/
  told : ∃ ds ds', b.Told ds u ∧ b.Told ds' u' ∧ ds.Perm ds'

/-- One reader tallies with itself. -/
theorem Tallies.refl {given : Option NodeId} {u : Build} {t : Tree} {P : Tree → NodeId → Prop}
    (hgave : u.Gave t P given) (htold : ∃ ds, b.Told ds u) : Tallies b given u given u where
  alike := by
    cases given with
    | none => exact .none
    | some x =>
      have hx := (hgave.made.root x (by simp)).1
      have hembeds := (Tree.Extends.refl u.tree).embeds
      exact .some (hembeds.alike hgave.made.sound hembeds hx)
  told :=
    let ⟨ds, hds⟩ := htold
    ⟨ds, ds, hds, hds, .refl ds⟩

/-- A mapping without entries tells what it tells behind what was told before. -/
theorem exists_told_of_nil {given : Option NodeId} {u : Build}
    (h : Outcome setting depth type start b [] given u) : ∃ ds, b.Told ds u := by
  generalize hnil : ([] : List (Source × Source)) = entries at h
  cases h with
  | keyless => exact ⟨_, b.told_tell _⟩
  | unresolved | undeclared => simp at hnil
  | declared _ hdeclares =>
    subst hnil
    exact ⟨_, hdeclares.told_entries Distinct.nil⟩

/-- In whatever order entries stand, the declarations that come from them tally. -/
theorem DeclaresAt.tallies {u u' : Build} {x x' : NodeId} (hb : b.tree.Sound)
    (hentries : Distinct entries) (hperm : entries'.Perm entries)
    (h : DeclaresAt setting depth kind start l b entries x u)
    (h' : DeclaresAt setting depth kind start l b entries' x' u') :
    Tallies b (some x) u (some x') u' where
  alike := .some (h.alike hb hb hentries hperm h')
  told := by
    refine ⟨_, _, h.told_entries hentries, h'.told_entries (hentries.of_perm hperm), ?_⟩
    simp only [hentries.mem_scalarKeys_iff hperm]
    exact (hperm.symm.flatMap_right _).append_right _

/-- Where the first key chooses no kind, that is told, and the rest of the mapping is skipped. -/
theorem declarationBody_of_unresolved (hkey : key.isScalar = true)
    (hkind : type.resolveFirst key.text = none) (hclose : c.kind = .mappingEnd)
    (after : List (Source × Source)) :
    declarationBody type (inside setting depth) start setting
        ⟨Source.entryEvents ((key, value) :: after) ++ c :: rest, b, depth⟩
      = .ok none ⟨rest,
        b.tell [key.mistake setting.file s!"unexpected item keyword '{key.text}'"], depth⟩ := by
  rw [Source.entryEvents, List.append_assoc, List.append_assoc]
  exact declarationBody_of_none (loop_of_unresolved hkey hkind value _) hclose

/-- Where the value of the keyword gives no node, what it told is told, and the rest of the mapping
is skipped. -/
theorem declarationBody_of_undeclared {known : Property} (hb : b.tree.Sound)
    (hkey : key.isScalar = true) (hkind : type.resolveFirst key.text = some kind)
    (hkeyword : kind.isKeyword key.text = true) (hknown : kind.property? key.text = some known)
    (hvalue : (alone setting depth known.value value).1 = none) (hclose : c.kind = .mappingEnd)
    (after : List (Source × Source)) :
    declarationBody type (inside setting depth) start setting
        ⟨Source.entryEvents ((key, value) :: after) ++ c :: rest, b, depth⟩
      = .ok none ⟨rest, b.graft (alone setting depth known.value value).2, depth⟩ := by
  rw [Source.entryEvents, List.append_assoc, List.append_assoc]
  exact declarationBody_of_none (loop_of_undeclared hb hkey hkind hkeyword hknown hvalue _) hclose

/-- Where the keyword has a value, a declaration of its kind is given that comes from the
entries. -/
theorem declarationBody_of_declared (hb : b.tree.Sound) (hkey : key.isScalar = true)
    (hkind : type.resolveFirst key.text = some kind)
    (hgiven : ∀ known, kind.isKeyword key.text = true → kind.property? key.text = some known →
      (alone setting depth known.value value).1.isSome = true) (hclose : c.kind = .mappingEnd)
    (after : List (Source × Source)) :
    ∃ x u, declarationBody type (inside setting depth) start setting
        ⟨Source.entryEvents ((key, value) :: after) ++ c :: rest, b, depth⟩
          = .ok (some x) ⟨rest, u, depth⟩ ∧
      DeclaresAt setting depth kind start (start.through (c.location setting.file)) b
        ((key, value) :: after) x u := by
  have hfollows : ({ kind } : Draft).Follows setting depth type kind b [] b :=
    Draft.follows_containers hb (DeclarationType.accepts_of_resolveFirst hkind) rfl
  obtain ⟨draft, b₁, hloop, hdraft, hkeyword⟩ :=
    loop_of_declared rfl hfollows hkey hkind hgiven hclose after rest
  obtain ⟨x, u, hfinish, hdeclares⟩ := hdraft.finishAt hkeyword start _
  refine ⟨x, u, .trans ?_ hfinish, hdeclares⟩
  rw [Source.entryEvents, List.append_assoc, List.append_assoc]
  exact declarationBody_of_draft hloop

/-- The entries of a mapping may stand in any order behind the first one. -/
theorem declarationBody_of_reordered (hb : b.tree.Sound) (hentries : Distinct entries)
    (hperm : entries'.Perm entries) (hhead : entries'.head? = entries.head?)
    (hclose : c.kind = .mappingEnd) (start : Location) :
    ∃ given u given' u', declarationBody type (inside setting depth) start setting
        ⟨Source.entryEvents entries ++ c :: rest, b, depth⟩ = .ok given ⟨rest, u, depth⟩ ∧
      declarationBody type (inside setting depth) start setting
        ⟨Source.entryEvents entries' ++ c :: rest, b, depth⟩ = .ok given' ⟨rest, u', depth⟩ ∧
      Tallies b given u given' u' := by
  cases entries with
  | nil =>
    obtain rfl := hperm.eq_nil
    obtain ⟨given, u, hrun, houtcome⟩ := exists_outcome hb hclose
    have hgave := (post_declarationBody (takes_valueWithin _) (yields_valueWithin _) start
      (Tree.Grown.refl hb)).of_ok hrun
    exact ⟨given, u, given, u, hrun, hrun, .refl hgave (exists_told_of_nil houtcome)⟩
  | cons first after =>
    obtain ⟨key, value⟩ := first
    obtain ⟨after', rfl⟩ : ∃ after', entries' = (key, value) :: after' := by
      cases entries' with
      | nil => cases hhead
      | cons first' after' =>
        cases hhead
        exact ⟨after', rfl⟩
    have hkey : key.isScalar = true := hentries.literal (key, value) List.mem_cons_self
    -- The first entry is the same in both orders, so both choose the same kind or none.
    cases hkind : type.resolveFirst key.text with
    | none =>
      exact ⟨none, _, none, _, declarationBody_of_unresolved hkey hkind hclose after,
        declarationBody_of_unresolved hkey hkind hclose after', .none, _, _, b.told_tell _,
        b.told_tell _, .refl _⟩
    | some kind =>
      by_cases hfails : ∃ known, kind.isKeyword key.text = true ∧
        kind.property? key.text = some known ∧ (alone setting depth known.value value).1 = none
      · obtain ⟨known, hkeyword, hknown, hvalue⟩ := hfails
        exact ⟨none, _, none, _,
          declarationBody_of_undeclared hb hkey hkind hkeyword hknown hvalue hclose after,
          declarationBody_of_undeclared hb hkey hkind hkeyword hknown hvalue hclose after',
          .none, _, _, b.told_graft _, b.told_graft _, .refl _⟩
      · have hgiven (known : Property) (hkeyword : kind.isKeyword key.text = true)
            (hknown : kind.property? key.text = some known) :
            (alone setting depth known.value value).1.isSome = true := by
          by_contra hnone
          exact hfails ⟨known, hkeyword, hknown, by simpa using hnone⟩
        obtain ⟨x, u, hrun, hdeclares⟩ :=
          declarationBody_of_declared hb hkey hkind hgiven hclose after
        obtain ⟨x', u', hrun', hdeclares'⟩ :=
          declarationBody_of_declared hb hkey hkind hgiven hclose after'
        exact ⟨some x, u, some x', u', hrun, hrun', hdeclares.tallies hb hentries hperm hdeclares'⟩

/-- Where a level may be opened, a declaration is read from the entries of an untagged mapping. -/
theorem declaration_of_body {first last : Span} {given : Option NodeId} {u : Build}
    (hdepth : depth < setting.options.maxDepth)
    (h : declarationBody type (inside setting (depth + 1)) (first.location setting.file) setting
      ⟨Source.entryEvents entries ++ .over last .mappingEnd :: rest, b, depth + 1⟩
        = .ok given ⟨rest, u, depth + 1⟩) :
    declaration type setting ⟨(Source.mapping first last none entries).events ++ rest, b, depth⟩
      = .ok given ⟨rest, u, depth⟩ := by
  obtain ⟨levels, hlevels, hinside⟩ := exists_inside_eq hdepth
  have hevents : (Source.mapping first last none entries).events ++ rest
      = .over first (.mappingStart none) ::
        (Source.entryEvents entries ++ .over last .mappingEnd :: rest) := by
    simp [Source.events]
  rw [hevents]
  refine eq_ok_of_post ?_
  unfold declaration valueOf
  rw [post_bind, post_levels, hlevels]
  unfold valueWithin plain atPlain
  rw [post_bind, post_bind, post_current rfl, post_pure]
  simp only [Event.kind_over, Container.plainStart, decide_true, if_true]
  rw [post_bind, post_here rfl, post_nested, ← hinside, Event.location_over]
  exact (Result.post_of_ok h).mpr ⟨rfl, rfl⟩

/-- A mapping that is tagged or too deep is refused as a whole, whatever its entries are. -/
theorem declaration_of_refused {first last : Span} {tag : Option String}
    (h : tag ≠ none ∨ setting.options.maxDepth ≤ depth) : ∃ message, ∀ entries,
    declaration type setting ⟨(Source.mapping first last tag entries).events ++ rest, b, depth⟩
      = .ok none ⟨rest, b.tell [⟨.error, message, first.location setting.file⟩], depth⟩ := by
  have hevents (entries : List (Source × Source)) :
      (⟨(Source.mapping first last tag entries).events ++ rest, b, depth⟩ : ParseState).events
        = .over first (.mappingStart tag) ::
          (Source.entryEvents entries ++ .over last .mappingEnd :: rest) := by
    simp [Source.events]
  unfold declaration valueOf valueWithin plain atPlain
  cases tag with
  | some text =>
    refine ⟨s!"expected a {Container.mapping.name}", fun entries => eq_ok_of_post ?_⟩
    rw [post_bind, post_levels, post_bind, post_bind, post_current (hevents entries), post_pure]
    exact (Result.post_of_ok (refuse_events _ _)).mpr ⟨rfl, rfl⟩
  | none =>
    have hlevels : setting.options.maxDepth - depth = 0 :=
      Nat.sub_eq_zero_of_le (h.resolve_left fun hne => hne rfl)
    refine ⟨"maximum nesting depth exceeded", fun entries => eq_ok_of_post ?_⟩
    rw [post_bind, post_levels, hlevels, post_bind, post_bind, post_current (hevents entries),
      post_pure]
    simp only [Event.kind_over, Container.plainStart, decide_true, if_true]
    rw [post_bind, post_here (hevents entries)]
    exact (Result.post_of_ok (refuse_events _ _)).mpr ⟨rfl, rfl⟩

end Mapping

/-- The order of keys does not matter. If the keys of a mapping are literal and no two are spelt
alike, a declaration is read from it as it is from any other in which the entries stand in another
order behind the first one. Either there is none in both, or there is one in both: they stand at the
same location, are of the same kind and have the same keys bound to subtrees that are alike. And the
same mistakes are told in some order. -/
theorem declaration_of_reordered (setting : Setting) (type : DeclarationType) (b : Build)
    (depth : Nat) (first last : Span) (tag : Option String)
    (entries entries' : List (Source × Source)) (rest : List Event) (hb : b.tree.Sound)
    (hentries : Distinct entries) (hperm : entries'.Perm entries)
    (hhead : entries'.head? = entries.head?) :
    let events (entries : List (Source × Source)) :=
      (Source.mapping first last tag entries).events ++ rest
    ∃ given u given' u',
      declaration type setting ⟨events entries, b, depth⟩ = .ok given ⟨rest, u, depth⟩ ∧
      declaration type setting ⟨events entries', b, depth⟩ = .ok given' ⟨rest, u', depth⟩ ∧
      Tallies b given u given' u' ∧
      ∀ x ∈ given, ∀ x' ∈ given', ∃ d d', u.tree.node? x = some (.declaration d) ∧
        u'.tree.node? x' = some (.declaration d') ∧ d'.kind = d.kind ∧
        ∀ key, Option.Rel (u.tree.Alike u'.tree) (d.bound? key) (d'.bound? key) := by
  intro events
  by_cases h : tag ≠ none ∨ setting.options.maxDepth ≤ depth
  · obtain ⟨message, hrefused⟩ := declaration_of_refused h
    exact ⟨none, _, none, _, hrefused entries, hrefused entries',
      ⟨.none, _, _, b.told_tell _, b.told_tell _, .refl _⟩, by simp⟩
  · push Not at h
    obtain ⟨rfl, hdepth⟩ := h
    have hclose : (Event.over last .mappingEnd).kind = .mappingEnd := rfl
    obtain ⟨given, u, given', u', hrun, hrun', htallies⟩ :=
      declarationBody_of_reordered hb hentries hperm hhead hclose _
    have hread : declaration type setting ⟨events entries, b, depth⟩ = _ :=
      declaration_of_body hdepth hrun
    refine ⟨given, u, given', u', hread, declaration_of_body hdepth hrun', htallies,
      fun x hx x' hx' => ?_⟩
    cases hx
    cases hx'
    obtain ⟨halike⟩ := htallies.alike
    obtain ⟨kind, hform, -⟩ := ((yields_valueOf (.declaration type) setting _ hb).of_ok hread).form
      x rfl
    obtain ⟨d, hnode, -⟩ := Tree.exists_declaration_of_form? hform
    obtain ⟨d', hnode', hsame⟩ := halike.exists_declaration hnode
    exact ⟨d, d', hnode, hnode', hsame⟩

/-- The ids of nodes are given in the order of the keys, and the nodes are alike. -/
theorem declaration_of_swapped_keys :
    let span : Span := ⟨default, default⟩
    let entry (key value : String) := (Source.scalar span none key, Source.scalar span none value)
    let read (entries : List (Source × Source)) :=
      alone ⟨"m.yml", {}⟩ 0 (.declaration (.concrete .variable)) (.mapping span span none entries)
    let given := read [entry "Variable" "x", entry "Value" "1", entry "Type" "String"]
    let given' := read [entry "Variable" "x", entry "Type" "String", entry "Value" "1"]
    Tallies {} given.1 given.2 given'.1 given'.2 ∧
      given.2.tree.children 3 = [0, 2, 1] ∧ given'.2.tree.children 3 = [0, 1, 2] := by
  intro span entry read given given'
  obtain ⟨x, u, x', u', hrun, hrun', htallies, -⟩ := declaration_of_reordered ⟨"m.yml", {}⟩
    (.concrete .variable) {} 0 span span none
    [entry "Variable" "x", entry "Value" "1", entry "Type" "String"]
    [entry "Variable" "x", entry "Type" "String", entry "Value" "1"] [] Tree.sound_empty
    ⟨by decide, by decide⟩ (.cons _ (.swap _ _ _)) rfl
  have hread (entries : List (Source × Source)) {x : Option NodeId} {u : Build}
      (h : declaration (.concrete .variable) ⟨"m.yml", {}⟩
        ⟨(Source.mapping span span none entries).events ++ [], {}, 0⟩ = .ok x ⟨[], u, 0⟩) :
      read entries = (x, u) := by
    rw [List.append_nil] at h
    change valueOf _ _ _ = _ at h
    simp only [read, alone, h]
  refine ⟨?_, by decide +kernel, by decide +kernel⟩
  rw [show given = (x, u) from hread _ hrun, show given' = (x', u') from hread _ hrun']
  exact htallies

end Parse

end InfraModule
