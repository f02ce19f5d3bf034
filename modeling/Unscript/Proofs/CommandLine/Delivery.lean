import Unscript.CommandLine.Run
import Unscript.Proofs.Bytes.Fields
import Unscript.Proofs.CommandLine.Files

/-!
# Where recovered scripts go

The text recovered from a script is written to a target that is made from a part of the script's
path. What the files hold in the end is the text that was written to each target last, so a text is
kept just when no later one goes to the same target.

* `CommandLine.Working.Does`: what a part of a session does.
* `Commands.goal`: the target of a script.
* `Commands.deposits`: the texts that are written, with their places.

Results:
* `Commands.does_deliverAll`: what delivering units leaves in the files.
* `Commands.goal_eq_iff`: which scripts have the same target.
* `Commands.does_decompile`: what a command leaves in the files.
-/

namespace Unscript

/-! ## Targets -/

namespace Path

variable {p q : Path}

/-- The names of a path are names of files. -/
def Proper (p : Path) : Prop :=
  ∀ n ∈ p.names, '/' ∉ n.toList

/-- A name is read as a path of its own. -/
theorem read_name {s : String} (hslash : '/' ∉ s.toList) (hname : isName s) :
    read s = ⟨"", [s]⟩ := by
  have hroot : s.toList.takeWhile (· == '/') = [] := by
    cases hs : s.toList with
    | nil => rfl
    | cons c cs =>
      rw [hs, List.mem_cons, not_or] at hslash
      rw [List.takeWhile_cons_of_neg]
      simpa using Ne.symm hslash.1
  unfold read rootOf
  rw [hroot, List.splitOn_eq_singleton hslash]
  simp [hname]

theorem slash_not_mem_stem (h : p.Proper) : '/' ∉ p.stem.toList := by
  have hname : '/' ∉ p.name.toList := by
    unfold name
    cases hlast : p.names.getLast? with
    | none => simp
    | some n => exact h n (List.mem_of_getLast? hlast)
  unfold stem
  dsimp only
  split
  · rw [String.toList_ofList]
    exact fun hmem => hname (List.mem_of_mem_take hmem)
  · exact hname

/-- **Targets** are the same for scripts with the same stem, beside each other if they go beside
their scripts. -/
theorem output_eq_iff (hp : p.Proper) (hq : q.Proper) (directory : Option Path) :
    p.output ".gd" directory = q.output ".gd" directory ↔
      p.stem = q.stem ∧ (directory = none → p.parent = q.parent) := by
  have hread {p : Path} (hp : p.Proper) : read (p.stem ++ ".gd") = ⟨"", [p.stem ++ ".gd"]⟩ := by
    refine read_name ?_ ?_
    · rw [String.toList_append, List.mem_append, not_or]
      exact ⟨slash_not_mem_stem hp, by decide⟩
    · have hlong : 3 ≤ (p.stem ++ ".gd").length := by
        rw [String.length_append]
        exact Nat.le_add_left _ _
      unfold isName
      rw [Bool.and_eq_true, bne_iff_ne, bne_iff_ne]
      refine ⟨fun heq => ?_, fun heq => ?_⟩ <;> rw [heq] at hlong <;> contradiction
  have hjoin {p : Path} (hp : p.Proper) (d : Path) :
      d.join (read (p.stem ++ ".gd")) = { d with names := d.names ++ [p.stem ++ ".gd"] } := by
    rw [hread hp]
    rfl
  unfold output
  rw [hjoin hp, hjoin hq]
  cases directory with
  | some d => simp
  | none =>
    rw [Option.getD_none, Option.getD_none, Path.mk.injEq]
    constructor
    · rintro ⟨hroot, hnames⟩
      obtain ⟨hparent, hstem⟩ := List.append_inj' hnames rfl
      refine ⟨by simpa using hstem, fun _ => ?_⟩
      exact congrArg₂ Path.mk hroot hparent
    · rintro ⟨hstem, hparent⟩
      rw [hstem, hparent rfl]
      exact ⟨rfl, rfl⟩

end Path

namespace CommandLine

/-! ## Parts of a session -/

namespace Working

variable {α β : Type} {x : Working α} {f : α → Working β} {s : Session}
  {Q Q' : α → Session → Prop} {R : β → Session → Prop} {E E' : Halt → Session → Prop}

/-- What a part of a session does: it goes on with `Q` or ends the session with `E`. -/
def Does (x : Working α) (s : Session) (Q : α → Session → Prop) (E : Halt → Session → Prop) : Prop :=
  match x.run.run s with
  | (.ok a, s') => Q a s'
  | (.error h, s') => E h s'

theorem does_pure {a : α} (h : Q a s) : Does (pure a) s Q E :=
  h

theorem does_tree {Q : FileTree → Session → Prop} (h : Q s.files s) : Does tree s Q E :=
  h

theorem does_print {text : String} {Q : Unit → Session → Prop}
    (h : Q () { s with printed := s.printed ++ text }) : Does (print text) s Q E :=
  h

theorem Does.mono (h : Does x s Q E) (hQ : ∀ a s', Q a s' → Q' a s')
    (hE : ∀ halt s', E halt s' → E' halt s') : Does x s Q' E' := by
  unfold Does at h ⊢
  split at h
  · exact hQ _ _ h
  · exact hE _ _ h

/-- One part goes on where another ends. -/
theorem Does.bind (hx : Does x s (fun a s' => Does (f a) s' R E) E) : Does (x >>= f) s R E := by
  unfold Does at hx ⊢
  rw [Outcome.run_bind]
  rcases hrun : x.run.run s with ⟨halt | a, s'⟩ <;> rw [hrun] at hx <;> exact hx

theorem does_noted {y : Noted α} (h : Q y.value (s.keep y.notes)) : Does (noted y) s Q E :=
  h

theorem does_say {level : Level} {text : String} {Q : Unit → Session → Prop}
    (h : ∀ notes, Q () (s.keep notes)) : Does (say level text) s Q E :=
  h _

theorem does_orFault {ε : Type} {wrap : ε → Fault} {y : Except ε α} (hQ : ∀ a, y = .ok a → Q a s)
    (hE : ∀ e, E (.fault (wrap e)) s) : Does (orFault wrap y) s Q E := by
  cases y with
  | ok a => exact hQ a rfl
  | error e => exact hE e

/-- Writing a file ends the session if it cannot be written. -/
theorem does_writeFile {p : Path} {text : String} {Q : Unit → Session → Prop}
    (hQ : ∀ s', s.write p (Bytes.ofString text) = .ok s' → Q () s')
    (hE : ∀ e, E (.fault (.file e)) s) : Does (writeFile p text) s Q E := by
  unfold Does writeFile
  rw [Outcome.run_bind, Outcome.run_get]
  dsimp only
  rw [Outcome.run_bind]
  cases hwrite : s.write p (Bytes.ofString text) with
  | ok s' => exact hQ s' hwrite
  | error e => exact hE e

end Working

/-! ## Delivering units -/

namespace Commands

open Session (Keeps)

variable {r : DecompileRequest} {several : Bool} {s₀ s : Session} {t : FileTree}
  {written : List (Place × String)} {p q : Path} {u : UnitResult} {us : List (Path × UnitResult)}

/-- The target of a script. -/
def goal (t : FileTree) (r : DecompileRequest) (several : Bool) (p : Path) : Path :=
  (target t (r.output.map Path.read) several p).value

/-- The texts that are written, with the places of their targets. -/
def deposits (goal : Path → Path) (us : List (Path × UnitResult)) : List (Place × String) :=
  us.filterMap fun x => x.2.source.map fun text => (FileTree.placeOf (goal x.1), text)

/-- **One unit** is delivered to its target, or the session ends. -/
theorem does_deliver (hstdout : r.toStdout = false) (h : s₀.Keeps s written) :
    Working.Does (deliver r several p u) s
      (fun _ s' => s₀.Keeps s' (written ++ deposits (goal s.files r several) [(p, u)]))
      (fun halt s' => (∃ e, halt = .fault (.file e)) ∧ s₀.Keeps s' written) := by
  unfold deliver
  split
  · rename_i hsource
    refine Working.does_pure ?_
    simpa [deposits, hsource] using h
  · rename_i text hsource
    rw [if_neg (by simp [hstdout])]
    refine Working.Does.bind (Working.does_tree ?_)
    refine Working.Does.bind (Working.does_noted ?_)
    refine Working.Does.bind (Working.does_writeFile (fun s' hs' => ?_) fun e => ?_)
    · refine Working.Does.bind (Working.does_say fun notes => Working.does_pure ?_)
      have hkeeps := ((h.keep _).write hs').keep notes
      simpa [deposits, hsource, goal] using hkeeps
    · exact ⟨⟨e, rfl⟩, h.keep _⟩

/-- The targets of several scripts do not depend on the files. -/
theorem goal_several (t t' : FileTree) : goal t r true = goal t' r true := by
  funext p
  unfold goal target
  cases r.output.map Path.read <;> rfl

/-- **Units** are delivered one after another, until one cannot be written. -/
theorem does_deliverAll (hstdout : r.toStdout = false)
    (hsteady : us ≠ [] → several = true ∨ us.length = 1 ∧ s.files = t) (h : s₀.Keeps s written)
    (report : Report) :
    Working.Does (deliverAll r several report us) s
      (fun _ s' => s₀.Keeps s' (written ++ deposits (goal t r several) us))
      (fun halt s' => (∃ e, halt = .fault (.file e)) ∧ ∃ done rest, us = done ++ rest ∧
        s₀.Keeps s' (written ++ deposits (goal t r several) done)) := by
  induction us generalizing s written report with
  | nil =>
    refine Working.does_pure ?_
    simpa [deposits] using h
  | cons x us ih =>
    obtain ⟨p, u⟩ := x
    have hgoal : goal s.files r several = goal t r several := by
      rcases hsteady (List.cons_ne_nil _ _) with rfl | ⟨-, rfl⟩
      · exact goal_several _ _
      · rfl
    have hsplit (done : List (Path × UnitResult)) :
        written ++ deposits (goal t r several) ((p, u) :: done) =
          written ++ deposits (goal s.files r several) [(p, u)] ++
            deposits (goal t r several) done := by
      rw [hgoal, List.append_assoc, deposits, deposits, deposits, ← List.filterMap_append]
      rfl
    unfold deliverAll
    refine Working.Does.bind ((does_deliver hstdout h).mono ?_ ?_)
    · intro path s' hkeeps
      have hsteady' : us ≠ [] → several = true ∨ us.length = 1 ∧ s'.files = t := by
        intro hne
        refine .inl ((hsteady (List.cons_ne_nil _ _)).resolve_right fun hone => hne ?_)
        simpa using hone.1
      refine (ih hsteady' hkeeps _).mono (fun _ s'' hkeeps' => ?_) ?_
      · rwa [hsplit]
      · rintro halt s'' ⟨he, done, rest, rfl, hkeeps'⟩
        exact ⟨he, (p, u) :: done, rest, rfl, by rwa [hsplit]⟩
    · rintro halt s' ⟨he, hkeeps⟩
      exact ⟨he, [], (p, u) :: us, rfl, by simpa [deposits] using hkeeps⟩

/-- Which of several scripts have the same target. -/
theorem goal_eq_iff (t : FileTree) (r : DecompileRequest) (hp : p.Proper) (hq : q.Proper) :
    goal t r true p = goal t r true q ↔
      p.stem = q.stem ∧ (r.output = none → p.parent = q.parent) := by
  unfold goal target
  cases r.output with
  | none => simpa using Path.output_eq_iff hp hq none
  | some word => simpa using Path.output_eq_iff hp hq (some (Path.read word))

/-! ## The command -/

/-- The file that a command writes behind the texts: the report, if one is asked for. -/
def Reports (r : DecompileRequest) (tail : List (Place × String)) : Prop :=
  tail = [] ∨ ∃ word text, r.report = some word ∧ tail = [(FileTree.placeOf (Path.read word), text)]

variable {o : Options} {a : Access} {key : Option String} {s₁ s₂ s₃ : Session} {paths : List Path}
  {opened : List (Path × Container)} {errors : List String} {units : List UnitResult}

theorem does_of_run {α : Type} {x : Working α} {a : α} {s' : Session}
    {Q : α → Session → Prop} {E : Halt → Session → Prop} (h : x.run.run s = (.ok a, s'))
    (hQ : Q a s') : Working.Does x s Q E := by
  unfold Working.Does
  rwa [h]

/-- What a command leaves in the files, once its inputs are opened and recovered. -/
theorem does_decompile (hstdout : r.toStdout = false)
    (hpaths : (Inputs.collect r.inputs).run.run s = (.ok paths, s₁)) (hne : paths ≠ [])
    (hopened : (Inputs.openAll a paths).run.run s₁ = (.ok (opened, errors), s₂))
    (hunits : (recover o r.dialect (opened.map (·.2))).run.run s₂ = (.ok units, s₃)) :
    Working.Does (decompile o a key r) s
      (fun _ s' => ∃ tail, Reports r tail ∧ s₃.Keeps s' (deposits
        (goal s₃.files r (1 < opened.length)) ((opened.map (·.1)).zip units) ++ tail))
      (fun halt s' => (∃ e, halt = .fault (.file e)) ∧ ∃ done rest,
        (opened.map (·.1)).zip units = done ++ rest ∧
        s₃.Keeps s' (deposits (goal s₃.files r (1 < opened.length)) done)) := by
  unfold decompile
  refine Working.Does.bind (does_of_run hpaths ?_)
  rw [if_neg (by simpa using hne)]
  refine Working.Does.bind (does_of_run hopened ?_)
  refine Working.Does.bind (does_of_run hunits ?_)
  have hsteady : (opened.map (·.1)).zip units ≠ [] → decide (1 < opened.length) = true ∨
      ((opened.map (·.1)).zip units).length = 1 ∧ s₃.files = s₃.files := by
    intro hne
    have hpos := List.length_pos_iff.mpr hne
    rw [List.length_zip, List.length_map] at hpos ⊢
    rcases Nat.lt_or_ge 1 opened.length with hmany | hone
    · exact .inl (decide_eq_true hmany)
    · exact .inr ⟨by omega, rfl⟩
  refine Working.Does.bind ((does_deliverAll hstdout hsteady (Session.Keeps.refl s₃) _).mono ?_ ?_)
  · intro report s' hkeeps
    rw [List.nil_append] at hkeeps
    generalize (opened.map (·.1)).zip units = us at hkeeps ⊢
    generalize goal s₃.files r (1 < opened.length) = goal at hkeeps ⊢
    extract_lets coded shown
    -- What is printed in the end does not matter for the files.
    have hshown {s' : Session} {tail : List (Place × String)} {E : Halt → Session → Prop}
        (htail : Reports r tail) (hkeeps : s₃.Keeps s' (deposits goal us ++ tail)) :
        Working.Does (shown ()) s'
          (fun _ s' => ∃ tail, Reports r tail ∧ s₃.Keeps s' (deposits goal us ++ tail)) E := by
      dsimp only [shown]
      split
      · exact Working.Does.bind
          (Working.does_print (Working.does_pure ⟨tail, htail, hkeeps.print _⟩))
      · split
        · exact Working.Does.bind
            (Working.does_print (Working.does_pure ⟨tail, htail, hkeeps.print _⟩))
        · exact Working.does_pure ⟨tail, htail, hkeeps⟩
    split
    · exact hshown (.inl rfl) (by rwa [List.append_nil])
    · rename_i word hword
      refine Working.Does.bind (Working.does_writeFile (fun s'' hs'' => ?_) fun e => ?_)
      · refine Working.Does.bind (Working.does_say fun notes => ?_)
        exact hshown (.inr ⟨word, _, hword, rfl⟩) ((hkeeps.write hs'').keep notes)
      · exact ⟨⟨e, rfl⟩, us, [], (List.append_nil us).symm, hkeeps⟩
  · rintro halt s' ⟨he, done, rest, hsplit, hkeeps⟩
    exact ⟨he, done, rest, hsplit, hkeeps⟩

end Commands

end CommandLine

end Unscript
