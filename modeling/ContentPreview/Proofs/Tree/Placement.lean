import ContentPreview.Proofs.Tree.Canonical

/-!
# What a listing puts at a place

A *place* is a list of names that leads from the roots of a tree downwards.
This module says exactly what stands at every place of the tree of a listing,
in terms of the records alone and without following their order any further
than "the last file".

The proof has two steps.  `follow?_place` computes what one record does at one
place: it settles the node there, or descends through it, or leaves it alone.
`Described.insert` shows that the description survives one more record; it
never looks into the tree again.  `follow?_materialize` is the induction over
the listing.

## Main definitions

* `Forest.follow?` — the node at a place.
* `IsLastFile` — a record that is the last file of a listing at a place.

## Main results

* `follow?_place` — one record at one place.
* `follow?_materialize` — which places of the tree of a listing are taken, and
  the name, kind, size and content of the node at each.
-/

namespace ContentPreview

namespace Forest

/-- The node that a list of keys leads to. -/
def follow? : List String → Forest → Option View
  | [], _ => none
  | [key], level => level.lookup key
  | key :: next :: rest, level =>
    (level.lookup key).bind fun v => follow? (next :: rest) v.children

/-! ## One record at one place -/

/-- A directory on the way of a record, with a change made below it. -/
def descend (name : String) (below : Forest → Forest) (found : Option View) : View :=
  let node := (found.getD (View.directory name)).promoted
  { node with children := below node.children }

theorem children_promoted (v : View) : v.promoted.children = v.children := by
  unfold View.promoted
  split <;> rfl

theorem children_settle (name : String) (r : Record) (found : Option View) :
    (settle name r found).children = (found.map View.children).getD [] := by
  cases found with
  | none =>
      simp only [settle]
      split <;> rfl
  | some v =>
      simp only [settle]
      split
      · exact children_promoted v
      · split <;> rfl

theorem children_descend (name : String) (below : Forest → Forest) (found : Option View) :
    (descend name below found).children = below ((found.map View.children).getD []) := by
  cases found with
  | none => rfl
  | some v =>
      show below (v.promoted.children) = below v.children
      rw [children_promoted]

theorem follow?_nil_forest (p : List String) : follow? p [] = none := by
  match p with
  | [] => rfl
  | [_] => rfl
  | _ :: _ :: _ => rfl

/-- Below a node that may be missing, the walk goes on in its children. -/
theorem follow?_cons_cons (key next : String) (rest : List String) (level : Forest) :
    follow? (key :: next :: rest) level =
      follow? (next :: rest) (((level.lookup key).map View.children).getD []) := by
  rw [follow?]
  cases level.lookup key with
  | none => exact (follow?_nil_forest (next :: rest)).symm
  | some v => rfl

theorem place_cons_cons (r : Record) (c next : String) (rest : List String) (level : Forest) :
    place r (c :: next :: rest) level =
      Keyed.alter c (descend c (place r (next :: rest))) level := rfl

/-- What a record with components `cs` does at the place `p`: its own node is
settled, a node on its way is descended through, and every other node stays
what it is.  Along the components, the place runs out at or before the record's end, or parts
from it, or goes on behind it. -/
theorem follow?_place (r : Record) {cs p : List String} (hcs : cs ≠ []) (hp : p ≠ [])
    (level : Forest) :
    follow? p (place r cs level) =
      if p = cs then some (settle (p.getLast hp) r (follow? p level))
      else if p <+: cs then
        some (descend (p.getLast hp) (place r (cs.drop p.length)) (follow? p level))
      else follow? p level := by
  induction cs generalizing p level with
  | nil => exact absurd rfl hcs
  | cons c cs ih =>
      match cs, p, hp with
      | [], [k], _ =>
          rw [place, follow?, Keyed.lookup_alter]
          by_cases hk : k = c
          · subst hk
            simp [follow?]
          · simp [hk, follow?]
      | [], k :: k' :: p, _ =>
          rw [follow?_cons_cons, follow?_cons_cons, place, Keyed.lookup_alter]
          by_cases hk : k = c
          · subst hk
            simp [children_settle]
          · simp [hk]
      | next :: rest, [k], _ =>
          rw [place_cons_cons, follow?, Keyed.lookup_alter]
          by_cases hk : k = c
          · subst hk
            simp [follow?]
          · simp [hk, follow?]
      | next :: rest, k :: k' :: p, _ =>
          rw [follow?_cons_cons, follow?_cons_cons, place_cons_cons, Keyed.lookup_alter]
          by_cases hk : k = c
          · subst hk
            rw [if_pos rfl, Option.map_some, Option.getD_some, children_descend,
              ih (by simp) (by simp)]
            simp [List.cons_prefix_cons]
          · simp [hk]

/-- A node of a canonical forest is canonical and has the last key for its name. -/
theorem Canonical.follow? {level : Forest} {p : List String} (h : level.Canonical)
    (hp : p ≠ []) {v : View} (hv : follow? p level = some v) :
    v.Canonical ∧ v.name = p.getLast hp := by
  induction p generalizing level with
  | nil => exact absurd rfl hp
  | cons key rest ih =>
      cases rest with
      | nil =>
          have hmem := Keyed.mem_of_lookup hv
          exact ⟨h.nodes _ hmem, (h.keys _ hmem).symm⟩
      | cons next rest =>
          rw [follow?_cons_cons] at hv
          rw [List.getLast_cons_cons]
          cases hkey : level.lookup key with
          | none =>
              rw [hkey, Option.map_none, Option.getD_none, follow?_nil_forest] at hv
              cases hv
          | some w =>
              rw [hkey] at hv
              have hw := h.nodes _ (Keyed.mem_of_lookup hkey)
              exact ih hw.promoted.2 (by simp) hv

end Forest

/-! ## What the records say of a place -/

section Records

variable {done : List Record} {p : List String}

/-- A record is at the place or below it. -/
def Mentions (records : List Record) (p : List String) : Prop :=
  ∃ r ∈ records, p <+: Path.components r.path

/-- A record is below the place, or is a directory at it. -/
def MakesDirectory (records : List Record) (p : List String) : Prop :=
  (∃ r ∈ records, p <+: Path.components r.path ∧ p ≠ Path.components r.path) ∨
    ∃ r ∈ records, r.isDirectory = true ∧ Path.components r.path = p

/-- The record is the last file at the place. -/
def IsLastFile (records : List Record) (p : List String) (r : Record) : Prop :=
  ∃ before after, records = before ++ r :: after ∧
    r.isDirectory = false ∧ Path.components r.path = p ∧
    ∀ r' ∈ after, ¬ (r'.isDirectory = false ∧ Path.components r'.path = p)

theorem mentions_append (r : Record) :
    Mentions (done ++ [r]) p ↔ Mentions done p ∨ p <+: Path.components r.path := by
  unfold Mentions
  simp only [List.mem_append, List.mem_singleton, or_and_right, exists_or, exists_eq_left]

theorem makesDirectory_append (r : Record) :
    MakesDirectory (done ++ [r]) p ↔
      MakesDirectory done p ∨ (p <+: Path.components r.path ∧ p ≠ Path.components r.path) ∨
        (r.isDirectory = true ∧ Path.components r.path = p) := by
  unfold MakesDirectory
  simp only [List.mem_append, List.mem_singleton, or_and_right, exists_or, exists_eq_left]
  grind

theorem MakesDirectory.mentions (h : MakesDirectory done p) : Mentions done p := by
  rcases h with ⟨r, hr, hpre, -⟩ | ⟨r, hr, -, rfl⟩
  · exact ⟨r, hr, hpre⟩
  · exact ⟨r, hr, List.prefix_refl _⟩

theorem isLastFile_append_self {r : Record} (hr : r.isDirectory = false)
    (hp : Path.components r.path = p) : IsLastFile (done ++ [r]) p r :=
  ⟨done, [], rfl, hr, hp, by simp⟩

theorem IsLastFile.append {r r' : Record} (h : IsLastFile done p r)
    (hr' : ¬ (r'.isDirectory = false ∧ Path.components r'.path = p)) :
    IsLastFile (done ++ [r']) p r := by
  obtain ⟨before, after, rfl, hr, hp, hafter⟩ := h
  refine ⟨before, after ++ [r'], by simp, hr, hp, fun r'' hmem => ?_⟩
  rw [List.mem_append, List.mem_singleton] at hmem
  rcases hmem with hmem | rfl
  · exact hafter r'' hmem
  · exact hr'

/-! ## The description survives a record -/

/-- What stands at a place is what the records say: nothing, a directory, or a
file with the size of the last one. -/
def Described (records : List Record) (p : List String) : Option View → Prop
  | none => ¬ Mentions records p
  | some v =>
    Mentions records p ∧ (v.isDirectory = true ↔ MakesDirectory records p) ∧
      (v.isDirectory = false → ∃ r, IsLastFile records p r ∧ v.size = r.size)

theorem isDirectory_promoted (v : View) : v.promoted.isDirectory = true := by
  unfold View.promoted
  split
  · assumption
  · rfl

/-- A record elsewhere changes nothing. -/
theorem Described.elsewhere {found : Option View} {r : Record} (h : Described done p found)
    (hr : ¬ p <+: Path.components r.path) : Described (done ++ [r]) p found := by
  have hne : Path.components r.path ≠ p := fun heq => hr (heq ▸ List.prefix_refl _)
  cases found with
  | none =>
      unfold Described at h ⊢
      rw [mentions_append]
      exact fun hor => hor.elim h hr
  | some v =>
      obtain ⟨hmention, hkind, hsize⟩ := h
      refine ⟨(mentions_append r).2 (.inl hmention), ?_, fun hfile => ?_⟩
      · rw [hkind, makesDirectory_append]
        simp [hr, hne]
      · obtain ⟨r', hr', hv⟩ := hsize hfile
        exact ⟨r', hr'.append (fun hand => hne hand.2), hv⟩

/-- A record below makes the place a directory. -/
theorem Described.below {r : Record} (hpre : p <+: Path.components r.path)
    (hne : p ≠ Path.components r.path) (name : String) (below : Forest → Forest)
    (found : Option View) :
    Described (done ++ [r]) p (some (Forest.descend name below found)) := by
  have hdir : (Forest.descend name below found).isDirectory = true := isDirectory_promoted _
  refine ⟨(mentions_append r).2 (.inr hpre), ?_, fun hfile => ?_⟩
  · simp [hdir, makesDirectory_append, hpre, hne]
  · rw [hdir] at hfile
    cases hfile

/-- A record at the place settles it. -/
theorem Described.at {found : Option View} {r : Record} (h : Described done p found)
    (hp : Path.components r.path = p) (name : String) :
    Described (done ++ [r]) p (some (Forest.settle name r found)) := by
  have hmention : Mentions (done ++ [r]) p :=
    (mentions_append r).2 (.inr (hp ▸ List.prefix_refl _))
  have hdirs : MakesDirectory (done ++ [r]) p ↔
      MakesDirectory done p ∨ r.isDirectory = true := by
    rw [makesDirectory_append]
    simp [hp]
  refine ⟨hmention, ?_⟩
  rw [hdirs]
  by_cases hr : r.isDirectory = true
  · have hdir : (Forest.settle name r found).isDirectory = true := by
      cases found with
      | none => simp [Forest.settle, hr, View.directory]
      | some v => simp [Forest.settle, hr, isDirectory_promoted]
    simp [hdir, hr]
  · have hfile : r.isDirectory = false := by simpa using hr
    have hlast : IsLastFile (done ++ [r]) p r := isLastFile_append_self hfile hp
    cases found with
    | none =>
        have hnot : ¬ MakesDirectory done p := fun hmakes => h hmakes.mentions
        simp only [Forest.settle, hfile, Bool.false_eq_true, if_false, View.file, hnot,
          false_or, true_and]
        exact fun _ => ⟨r, hlast, rfl⟩
    | some v =>
        obtain ⟨-, hkind, -⟩ := h
        by_cases hv : v.isDirectory = true
        · simp [Forest.settle, hfile, hv, hkind.1 hv]
        · have hnot : ¬ MakesDirectory done p := fun hmakes => hv (hkind.2 hmakes)
          simp only [Forest.settle, hfile, hv, Bool.false_eq_true, if_false, hnot, or_self,
            true_and]
          exact fun _ => ⟨r, hlast, rfl⟩

/-- The description of a place survives one more record. -/
theorem Described.insert {level : Forest} (hp : p ≠ [])
    (h : Described done p (level.follow? p)) (r : Record) :
    Described (done ++ [r]) p ((level.insert r).follow? p) := by
  unfold Forest.insert
  by_cases hnil : Path.components r.path = []
  · rw [hnil, Forest.place]
    exact h.elsewhere (by simpa [hnil] using hp)
  · rw [Forest.follow?_place r hnil hp]
    by_cases heq : p = Path.components r.path
    · rw [if_pos heq]
      exact h.at heq.symm _
    · rw [if_neg heq]
      by_cases hpre : p <+: Path.components r.path
      · rw [if_pos hpre]
        exact .below hpre heq _ _ _
      · rw [if_neg hpre]
        exact h.elsewhere hpre

end Records

/-! ## The whole listing -/

theorem described_materializeForest (records : List Record) {p : List String} (hp : p ≠ []) :
    Described records p ((materializeForest records).follow? p) := by
  induction records using List.reverseRecOn with
  | nil =>
      change Described [] p (Forest.follow? p [])
      rw [Forest.follow?_nil_forest]
      simp [Described, Mentions]
  | append_singleton done r ih =>
      rw [materializeForest_append_singleton]
      exact ih.insert hp r

/-- **What stands at a place.**  A place is taken exactly if some record is at it
or below it.  The node there has the last name of the place and no content.  It
is a directory exactly if some record is below it or a directory is at it, and
then it has no size; otherwise it is a file without children whose size is that
of the last file at the place. -/
theorem follow?_materialize (records : List Record) (p : List String) (hp : p ≠ []) :
    (((Forest.ofRoots (materialize records)).follow? p).isSome = true ↔
        ∃ r ∈ records, p <+: Path.components r.path) ∧
      ∀ v : View, (Forest.ofRoots (materialize records)).follow? p = some v →
        v.name = p.getLast hp ∧ v.content = "" ∧
        (v.isDirectory = true ↔
          (∃ r ∈ records, p <+: Path.components r.path ∧ p ≠ Path.components r.path) ∨
            ∃ r ∈ records, r.isDirectory = true ∧ Path.components r.path = p) ∧
        (v.isDirectory = true → v.size = 0) ∧
        (v.isDirectory = false →
          v.children = [] ∧ ∃ r, IsLastFile records p r ∧ v.size = r.size) := by
  rw [ofRoots_materialize]
  have hdescribed := described_materializeForest records hp
  constructor
  · cases hfound : (materializeForest records).follow? p with
    | none =>
        rw [hfound] at hdescribed
        exact iff_of_false (by simp) hdescribed
    | some v =>
        rw [hfound] at hdescribed
        exact iff_of_true rfl hdescribed.1
  · intro v hfound
    rw [hfound] at hdescribed
    obtain ⟨-, hkind, hsize⟩ := hdescribed
    obtain ⟨hv, hname⟩ := (canonical_materializeForest records).follow? hp hfound
    refine ⟨hname, ?_, hkind, ?_, ?_⟩
    · cases hv with
      | file => rfl
      | directory => rfl
    · intro hdir
      cases hv with
      | file => cases hdir
      | directory => rfl
    · intro hfile
      refine ⟨?_, hsize hfile⟩
      cases hv with
      | file => rfl
      | directory => cases hfile

/-- A file that gains a member below it is a directory without size. -/
theorem follow?_materialize_promoted :
    let records := [Record.file "a" 3, Record.file "./a//b" 4, Record.file "a" 7]
    ["a"] ≠ [] ∧ ∃ v, (Forest.ofRoots (materialize records)).follow? ["a"] = some v ∧
      v.name = "a" ∧ v.isDirectory = true ∧ v.size = 0 := by
  intro records
  have hp : ["a"] ≠ [] := by simp
  have hmem : Record.file "./a//b" 4 ∈ records := by simp [records]
  have hbelow : ["a"] <+: Path.components (Record.file "./a//b" 4).path ∧
      ["a"] ≠ Path.components (Record.file "./a//b" 4).path := by decide
  obtain ⟨hsome, hfacts⟩ := follow?_materialize records ["a"] hp
  obtain ⟨v, hv⟩ := Option.isSome_iff_exists.1 (hsome.2 ⟨_, hmem, hbelow.1⟩)
  obtain ⟨hname, -, hkind, hsize, -⟩ := hfacts v hv
  have hdir : v.isDirectory = true := hkind.2 (.inl ⟨_, hmem, hbelow⟩)
  exact ⟨hp, v, hv, hname, hdir, hsize hdir⟩

end ContentPreview
