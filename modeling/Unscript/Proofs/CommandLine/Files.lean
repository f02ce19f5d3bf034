import Unscript.CommandLine.Session
import Unscript.Proofs.Outcome

/-!
# Files that are written

The place that a path leads to is known without a tree. Writing a file puts its bytes there, and all
other files keep theirs.

* `FileTree.placeOf`: the place of a path.
* `Session.Keeps`: files of a session hold what was written into them last.

Results:
* `FileTree.place_eq`: a tree leads a path to its place, or nowhere.
* `FileTree.write_ok`: what becomes of a tree when a file is written.
* `Session.Keeps.keep`, `Session.Keeps.write`: what notes and further files leave of written ones.
-/

namespace Unscript

namespace FileTree

variable {t t' : FileTree} {at' : Place} {names : List String} {p : Path} {bytes : List UInt8}

theorem eq_ok_of_mapError {ε ε' α : Type} {x : Except ε α} {f : ε → ε'} {a : α}
    (h : x.mapError f = .ok a) : x = .ok a := by
  cases x with
  | error e => cases h
  | ok a =>
    cases h
    rfl

/-- The place of a path, if all names on the way are directories. -/
def placeOf (p : Path) : Place :=
  p.names.foldl step (start p)

theorem walk_eq {place : Place} (h : t.walk at' names = .ok place) :
    place = names.foldl step at' := by
  induction names generalizing at' with
  | nil =>
    cases h
    rfl
  | cons n names ih =>
    unfold walk at h
    split at h
    · exact ih h
    · cases h
    · cases h

/-- A path leads to its place. -/
theorem place_eq {place : Place} (h : t.place p = .ok place) : place = placeOf p :=
  walk_eq h

/-- Making directories leaves what is there, and adds no files. -/
theorem entryAt_makeFrom {place : Place} (h : t.makeFrom at' names = .ok t') :
    (∀ e, t.entryAt? place = some e → t'.entryAt? place = some e) ∧
      ∀ bytes, t'.entryAt? place = some (.file bytes) → t.entryAt? place = some (.file bytes) := by
  induction names generalizing t at' with
  | nil =>
    cases h
    exact ⟨fun _ he => he, fun _ he => he⟩
  | cons n names ih =>
    unfold makeFrom at h
    dsimp only at h
    split at h
    · exact ih h
    · cases h
    · rename_i hnone
      obtain ⟨hkept, hnew⟩ := ih h
      rcases eq_or_ne place (step at' n) with rfl | hne
      · refine ⟨fun e he => ?_, fun bytes he => ?_⟩
        · cases hnone.symm.trans he
        cases hbase : isBase (step at' n) with
        | true =>
          unfold entryAt? at hnone
          rw [if_pos hbase] at hnone
          cases hnone
        | false => cases (hkept _ (entryAt_put hbase)).symm.trans he
      · rw [entryAt_put_ne hne] at hkept hnew
        exact ⟨hkept, hnew⟩

/-- **A file that is written** stands at the place of its path, and the other files are left. -/
theorem write_ok (h : t.write p bytes = .ok t') :
    t'.entryAt? (placeOf p) = some (.file bytes) ∧ ∀ place bytes', place ≠ placeOf p →
      (t'.entryAt? place = some (.file bytes') ↔ t.entryAt? place = some (.file bytes')) := by
  obtain ⟨t₁, ht₁, h⟩ := Outcome.bind_eq_ok.mp h
  obtain ⟨at', hat, h⟩ := Outcome.bind_eq_ok.mp h
  obtain rfl := place_eq (eq_ok_of_mapError hat)
  split at h
  · cases h
  · rename_i hfile
    cases h
    refine ⟨entryAt_put ?_, fun place bytes' hne => ?_⟩
    · rw [← Bool.not_eq_true]
      intro hbase
      refine hfile ?_
      unfold entryAt?
      rw [if_pos hbase]
    · rw [entryAt_put_ne hne]
      obtain ⟨hkept, hnew⟩ := @entryAt_makeFrom t t₁ (start p.parent) p.parent.names place
        (eq_ok_of_mapError ht₁)
      exact ⟨hnew bytes', hkept _⟩

end FileTree

namespace CommandLine.Session

variable {s₀ s s' : Session} {written : List (Place × String)} {p : Path} {text : String}

/-- The text that was written to a place last. -/
def lastText? (written : List (Place × String)) (place : Place) : Option String :=
  written.reverse.lookup place

/-- Since an earlier session, texts were written: the files hold the last one of each place, and the
others are left. Only the file of notes may have grown, which is none of those. -/
structure Keeps (s₀ s : Session) (written : List (Place × String)) : Prop where
  last : ∀ place text, lastText? written place = some text →
    s.files.entryAt? place = some (.file (Bytes.ofString text)) ∧ s.log ≠ some place
  others : ∀ place bytes, lastText? written place = none → s₀.log ≠ some place →
    (s.files.entryAt? place = some (.file bytes) ↔ s₀.files.entryAt? place = some (.file bytes))
  log : ∀ place, s.log = some place → s₀.log = some place

theorem Keeps.refl (s : Session) : Keeps s s [] :=
  ⟨nofun, fun _ _ _ _ => Iff.rfl, fun _ h => h⟩

theorem lastText?_append (written : List (Place × String)) (place other : Place) (text : String) :
    lastText? (written ++ [(place, text)]) other =
      if other = place then some text else lastText? written other := by
  unfold lastText?
  rw [List.reverse_append, List.reverse_singleton, List.singleton_append, List.lookup_cons]
  by_cases h : other = place
  · simp [h]
  · simp [h, beq_false_of_ne h]

/-- Something was written to a place last if anything was. -/
theorem exists_lastText? {place : Place} (h : (place, text) ∈ written) :
    ∃ text', lastText? written place = some text' := by
  rw [← Option.isSome_iff_exists, ← Option.ne_none_iff_isSome]
  intro hnone
  simpa using List.lookup_eq_none_iff.mp hnone _ (List.mem_reverse.mpr h)

/-- Adding to a file leaves the others. -/
theorem entryAt_append {t : FileTree} {at' place : Place} (h : place ≠ at') (bytes : List UInt8) :
    (append t at' bytes).entryAt? place = t.entryAt? place := by
  unfold append
  split
  · exact FileTree.entryAt_put_ne h
  · rfl

theorem entryAt_keep {place : Place} (h : s.log ≠ some place) (notes : List Note) :
    (s.keep notes).files.entryAt? place = s.files.entryAt? place := by
  unfold Session.keep
  dsimp only
  split
  · rename_i at' hat
    refine entryAt_append ?_ _
    rintro rfl
    exact h hat
  · rfl

/-- What is printed goes into no file. -/
theorem Keeps.print (h : s₀.Keeps s written) (printed : String) :
    s₀.Keeps { s with printed } written :=
  ⟨h.last, h.others, h.log⟩

/-- **Notes** go into no file but their own. -/
theorem Keeps.keep (h : s₀.Keeps s written) (notes : List Note) :
    s₀.Keeps (s.keep notes) written := by
  refine ⟨fun place text hlast => ?_, fun place bytes hnone hlog => ?_, h.log⟩
  · obtain ⟨hfile, hlog⟩ := h.last place text hlast
    exact ⟨(entryAt_keep hlog notes).trans hfile, hlog⟩
  · rw [entryAt_keep (fun hsome => hlog (h.log place hsome))]
    exact h.others place bytes hnone hlog

/-- **A further file** takes the place of an earlier one, or leaves all of them. -/
theorem Keeps.write (h : s₀.Keeps s written) (hwrite : s.write p (Bytes.ofString text) = .ok s') :
    s₀.Keeps s' (written ++ [(FileTree.placeOf p, text)]) := by
  obtain ⟨files, hfiles, hwrite⟩ := Outcome.bind_eq_ok.mp hwrite
  obtain ⟨at', hat, hwrite⟩ := Outcome.bind_eq_ok.mp hwrite
  cases hwrite
  obtain ⟨hthis, hothers⟩ := FileTree.write_ok hfiles
  obtain rfl := FileTree.place_eq (FileTree.eq_ok_of_mapError hat)
  refine ⟨fun place text' hlast => ?_, fun place bytes hnone hlog => ?_, fun place hsome => ?_⟩
  · rw [lastText?_append] at hlast
    split at hlast
    · rename_i heq
      cases hlast
      rw [heq]
      exact ⟨hthis, by simp [Option.filter_eq_some_iff]⟩
    · rename_i hne
      obtain ⟨hfile, hlog⟩ := h.last place text' hlast
      exact ⟨(hothers place _ hne).mpr hfile,
        fun hsome => hlog (Option.filter_eq_some_iff.mp hsome).1⟩
  · rw [lastText?_append] at hnone
    split at hnone
    · cases hnone
    · rename_i hne
      rw [hothers place bytes hne]
      exact h.others place bytes hnone hlog
  · exact h.log place (Option.filter_eq_some_iff.mp hsome).1

end CommandLine.Session

end Unscript
