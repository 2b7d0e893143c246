/-
What src/bootable/recovery/minzip/DirUtil.c leaves when it creates a hierarchy
of directories: a level of the path at a time, and nothing else.
-/
import MetaOS.DirFiles

namespace MetaOS

namespace DirUtil

open Prog

/-- Directories have come where nothing was, each at what stands before a slash
of the path, and nothing else has changed. -/
structure Grown (cpath : Bytes) (w w' : World) : Prop where
  kept : ∀ place, w'.tree.kind place = w.tree.kind place ∨
    (w.tree.kind place = none ∧ w'.tree.kind place = some .dir ∧
      ∃ level, level ++ [47] <+: cpath ∧ resolve level = place)
  attrs : ∀ place, w.tree.kind place ≠ none → w'.attrs place = w.attrs place
  failed : w.failed = true → w'.failed = true

/-- A file stands on the way. -/
def World.Blocked (w : World) (cpath : Bytes) : Prop :=
  ∃ level, level ++ [47] <+: cpath ∧
    w.tree.kind (resolve level) = some .file

/-- All of the path is there if 0 is returned, and 0 is returned unless a call
has failed or a file is in the way. -/
def Created (cpath : Bytes) (w : World) (r : Int) (w' : World) : Prop :=
  (r = 0 ∧ w'.tree.Leads cpath ∧
      w'.tree.kind (resolve cpath) = some .dir) ∨
    (r = -1 ∧ (w'.failed = true ∨ w.Blocked cpath))

section Growth

variable {path : Bytes} {w w' w'' : World}

theorem Grown.refl : Grown path w w :=
  ⟨fun _ => .inl rfl, fun _ _ => rfl, id⟩

theorem Grown.trans (hfirst : Grown path w w') (hsecond : Grown path w' w'') :
    Grown path w w'' := by
  refine ⟨fun place => ?_, fun place hsome => ?_,
    fun h => hsecond.failed (hfirst.failed h)⟩
  · rcases hsecond.kept place with hsame | ⟨hnone, hdir, hlevel⟩
    · rw [hsame]
      exact hfirst.kept place
    · rcases hfirst.kept place with hsame | ⟨-, hmade, -⟩
      · rw [hsame] at hnone
        exact .inr ⟨hnone, hdir, hlevel⟩
      · rw [hmade] at hnone
        cases hnone
  · have hstill : w'.tree.kind place ≠ none := by
      rcases hfirst.kept place with hsame | ⟨hnone, -⟩
      · rwa [hsame]
      · exact absurd hnone hsome
    rw [hsecond.attrs place hstill, hfirst.attrs place hsome]

theorem Grown.fail : Grown path w w.fail :=
  ⟨fun _ => .inl rfl, fun _ _ => rfl, fun _ => rfl⟩

theorem Grown.made {level : Bytes} (hlevel : level ++ [47] <+: path)
    (hmade : w.Made (resolve level) w') : Grown path w w' := by
  obtain ⟨hnone, hkind, hattrs, hfailed⟩ := hmade
  refine ⟨fun place => ?_, fun place hsome => hattrs place ?_,
    fun h => hfailed.trans h⟩
  · by_cases hplace : place = resolve level
    · rw [hplace, hkind, Function.update_self]
      exact .inr ⟨hnone, rfl, level, hlevel, rfl⟩
    · rw [hkind, Function.update_of_ne hplace]
      exact .inl rfl
  · rintro rfl
    exact hsome hnone

theorem Grown.dir (hgrown : Grown path w w') {place : List Bytes}
    (hdir : w.tree.kind place = some .dir) :
    w'.tree.kind place = some .dir := by
  rcases hgrown.kept place with hsame | ⟨-, hmade, -⟩
  · rw [hsame]
    exact hdir
  · exact hmade

/-- No link comes. -/
theorem Grown.plain (hgrown : Grown path w w') {other : Bytes}
    (hplain : w.tree.Plain other) : w'.tree.Plain other := by
  intro before hbefore
  rcases hgrown.kept (resolve before) with hsame | ⟨-, hmade, -⟩
  · rw [hsame]
    exact hplain before hbefore
  · rw [hmade]
    decide

/-- What is in the way now has been there from the start. -/
theorem Grown.blocked (hgrown : Grown path w w') {level : Bytes}
    (hlevel : level ++ [47] <+: path)
    (hfile : w'.tree.kind (resolve level) = some .file) : w.Blocked path := by
  refine ⟨level, hlevel, ?_⟩
  rcases hgrown.kept (resolve level) with hsame | ⟨-, hdir, -⟩
  · rw [← hsame]
    exact hfile
  · rw [hdir] at hfile
    cases hfile

end Growth

section Levels

variable {whole : Bytes} {w w' : World}

theorem getPathDirStatus_safe {level before : Bytes} (hlevel : level <+: whole)
    (hbefore : before ++ [47] <+: whole)
    (hplace : resolve level = resolve before) (hplain : w.tree.Plain whole)
    (hgrown : Grown whole w w') :
    Safe sem (Grown whole w)
      (fun status w'' =>
        (status = .DDIR ∧ w'' = w' ∧ w'.tree.Leads level ∧
            w'.tree.kind (resolve level) = some .dir) ∨
          (status = .DMISSING ∧ w'' = w') ∨
            (status = .DILLEGAL ∧ (w''.failed = true ∨ w.Blocked whole)))
      (getPathDirStatus level) w' := by
  have hplain' := hgrown.plain hplain
  simp only [getPathDirStatus, ask, perform_bind]
  refine ⟨hgrown, fun (st : Stat) w'' hsem => ?_⟩
  rcases hsem (hplain'.upTo hlevel) with ⟨hfinds, rfl⟩ | ⟨rfl, rfl⟩
  · cases st with
    | found kind =>
        obtain ⟨hlink, hleads, hkind | hno⟩ := hfinds
        · cases kind with
          | dir => exact ⟨hgrown, .inl ⟨rfl, rfl, hleads, hkind⟩⟩
          | file =>
              refine ⟨hgrown, .inr (.inr ⟨rfl, .inr ?_⟩)⟩
              rw [hplace] at hkind
              exact hgrown.blocked hbefore hkind
          | link => exact absurd rfl hlink
        · rw [hplace] at hno
          exact absurd hno (hplain' before hbefore)
    | ENOENT => exact ⟨hgrown, .inr (.inl ⟨rfl, rfl⟩)⟩
    | error => exact hfinds.elim
  · exact ⟨hgrown.trans .fail, .inr (.inr ⟨rfl, .inl rfl⟩)⟩

theorem World.Made.dir {place : List Bytes} (hmade : w.Made place w') :
    w'.tree.kind place = some .dir := by
  rw [hmade.2.1, Function.update_self]

/-- What stands before each slash that has been passed is a directory. -/
def World.Passed (w : World) (before : Bytes) : Prop :=
  ∀ level, level ++ [47] <+: before → w.tree.kind (resolve level) = some .dir

theorem World.Passed.concat {before : Bytes} {c : UInt8}
    (hpassed : w.Passed before)
    (hdir : c = 47 → w.tree.kind (resolve before) = some .dir) :
    w.Passed (before ++ [c]) := by
  intro level hlevel
  rcases List.prefix_concat_iff.mp hlevel with hsame | hearlier
  · obtain ⟨rfl, hc⟩ := List.append_inj' hsame rfl
    exact hdir (List.singleton_inj.mp hc).symm
  · exact hpassed level hearlier

/-- At a slash that is not behind a component nothing is new. -/
theorem World.Passed.dir {before : Bytes} (hpassed : w.Passed before)
    (hends : before = [] ∨ before.getLast? = some 47) :
    w.tree.kind (resolve before) = some .dir := by
  rcases hends with rfl | hlast
  · exact w.tree.root
  · obtain ⟨level, rfl⟩ := List.getLast?_eq_some_iff.mp hlast
    rw [resolve_slash]
    exact hpassed level List.prefix_rfl

theorem World.Passed.grown {before : Bytes} (hpassed : w.Passed before)
    (hgrown : Grown whole w w') : w'.Passed before :=
  fun level hlevel => hgrown.dir (hpassed level hlevel)

/-- Behind the loop every level is a directory. -/
theorem createLevels_safe (mode : Int) (timestamp : Option (Int × Int))
    (hslash : whole.getLast? = some 47) (hplain : w.tree.Plain whole)
    {before behind : Bytes} (hwhole : before ++ behind = whole)
    (hpassed : w'.Passed before) (hgrown : Grown whole w w') :
    Safe sem (Grown whole w) (Created whole w)
      (createLevels mode timestamp (levels before behind)) w' := by
  induction behind generalizing before w' with
  | nil =>
      rw [List.append_nil] at hwhole
      subst hwhole
      refine ⟨hgrown, .inl ⟨rfl, ⟨?_, hpassed⟩, hpassed.dir (.inr hslash)⟩⟩
      rintro rfl
      cases hslash
  | cons c behind ih =>
      have hnext : (before ++ [c]) ++ behind = whole := by
        rw [List.append_assoc]
        exact hwhole
      unfold levels
      split
      · next hlevel =>
          obtain ⟨rfl, hne, hlast⟩ := hlevel
          have hslashed : before ++ [47] <+: whole := ⟨behind, hnext⟩
          have hbefore : before <+: whole := ⟨_, hwhole⟩
          have hgo : ∀ {w'' : World},
              w''.tree.kind (resolve before) = some .dir →
              w''.Passed before → Grown whole w w'' →
              Safe sem (Grown whole w) (Created whole w)
                (createLevels mode timestamp (levels (before ++ [47]) behind))
                w'' := fun hdir hpassed'' =>
            ih hnext (hpassed''.concat fun _ => hdir)
          unfold createLevels
          refine Safe.bind
            (getPathDirStatus_safe hbefore hslashed rfl hplain hgrown)
            fun status w₁ hgrown₁ hstatus => ?_
          rcases hstatus with ⟨rfl, rfl, -, hdir⟩ | ⟨rfl, rfl⟩ | ⟨rfl, hbad⟩
          · exact hgo hdir hpassed hgrown
          · have hmkdir : before.rdropWhile (· == 47) = before := by
              refine List.rdropWhile_eq_self_iff.mpr fun hnil => ?_
              rw [List.getLast?_eq_some_getLast hnil] at hlast
              simpa using hlast
            have hplain' := (hgrown.plain hplain).upTo hbefore
            refine ⟨hgrown, fun (err : Int) w₂ hsem => ?_⟩
            change World.On _ (before.rdropWhile (· == 47)) _ _ at hsem
            rw [hmkdir] at hsem
            rcases hsem hplain' with ⟨-, rfl, hmade⟩ | ⟨rfl, rfl⟩
            · have hmadeGrown := Grown.made hslashed hmade
              have hpassed₂ := hpassed.grown hmadeGrown
              have hgrown₂ := hgrown.trans hmadeGrown
              cases timestamp with
              | none => exact hgo hmade.dir hpassed₂ hgrown₂
              | some times =>
                  refine ⟨hgrown₂, fun (err : Int) w₃ hsem => ?_⟩
                  rcases hsem with ⟨rfl, rfl⟩ | ⟨rfl, rfl⟩
                  · exact hgo hmade.dir hpassed₂ hgrown₂
                  · exact ⟨hgrown₂.trans .fail, .inr ⟨rfl, .inl rfl⟩⟩
            · exact ⟨hgrown.trans .fail, .inr ⟨rfl, .inl rfl⟩⟩
          · exact ⟨hgrown₁, .inr ⟨rfl, hbad⟩⟩
      · next hinside =>
          refine ih hnext (hpassed.concat fun hc => hpassed.dir ?_) hgrown
          by_contra hnot
          rw [not_or] at hnot
          exact hinside ⟨hc, hnot⟩

theorem getLast?_cpath {path : Bytes} {stripFileName : Bool}
    (hcpath : cpath path stripFileName = some whole) :
    whole.getLast? = some 47 := by
  unfold cpath at hcpath
  split at hcpath
  · dsimp only at hcpath
    split at hcpath
    · cases hcpath
    · next hlength =>
        cases hcpath
        have hne : path.rdropWhile (fun c => c != 47) ≠ [] := by
          intro hnil
          rw [hnil] at hlength
          exact hlength (Nat.zero_le _)
        have hlast := List.rdropWhile_last_not _ _ hne
        rw [List.getLast?_eq_some_getLast hne]
        simpa using hlast
  · cases hcpath
    exact List.getLast?_concat

end Levels

/-- In every run on a path with no link before a slash, whichever calls fail
(the first asks for memory) and wherever it is cut off, nothing changes but
that directories come at levels of the path; if the run returns 0 every level
is a directory, and it returns 0 unless a call fails or a file is in the way. -/
theorem hierarchy_created {path whole : Bytes} {mode : Int}
    {timestamp : Option (Int × Int)} {stripFileName : Bool} {w w' : World}
    {rest : Program Int} (hne : path ≠ [])
    (hcpath : cpath path stripFileName = some whole)
    (hplain : w.tree.Plain whole)
    (hrun : Reaches sem
      (dirCreateHierarchy path mode timestamp stripFileName, w) (rest, w')) :
    Grown whole w w' ∧ ∀ r, rest = ret r → Created whole w r w' := by
  have hslash := getLast?_cpath hcpath
  obtain ⟨before, hbefore⟩ := List.getLast?_eq_some_iff.mp hslash
  have hplace : resolve whole = resolve before := by
    rw [hbefore, resolve_slash]
  have hsafe : Safe sem (Grown whole w) (Created whole w)
      (dirCreateHierarchy path mode timestamp stripFileName) w := by
    unfold dirCreateHierarchy
    rw [if_neg hne, hcpath]
    simp only [ask, perform_bind]
    have hlevel : before ++ [47] <+: whole :=
      ⟨[], (List.append_nil _).trans hbefore.symm⟩
    refine ⟨.refl, fun (granted : Bool) w₀ hsem => ?_⟩
    rcases hsem with ⟨rfl, rfl⟩ | ⟨rfl, rfl⟩
    · dsimp only
      rw [if_neg (by decide)]
      refine Safe.bind (getPathDirStatus_safe List.prefix_rfl hlevel hplace
        hplain .refl) fun status w₁ hgrown hstatus => ?_
      rcases hstatus with ⟨rfl, rfl, hthere⟩ | ⟨rfl, rfl⟩ | ⟨rfl, hbad⟩
      · exact ⟨.refl, .inl ⟨rfl, hthere⟩⟩
      · refine createLevels_safe mode timestamp hslash hplain
          (List.nil_append _) (fun level hlevel => ?_) .refl
        exact absurd (List.prefix_nil.mp hlevel) (List.concat_ne_nil 47 level)
      · exact ⟨hgrown, .inr ⟨rfl, hbad⟩⟩
    · exact ⟨.fail, .inr ⟨rfl, .inl rfl⟩⟩
  have hreached := hsafe.reaches hrun
  refine ⟨hreached.now, fun r hreturn => ?_⟩
  rw [hreturn] at hreached
  exact hreached.2

namespace DirUtilWitness

/-- The directory `d`. -/
def onlyD : Files where
  log := [([.ofString "d"], some .dir)]
  attrs := fun _ => ⟨0, 0, 493⟩
  failed := false
  sound := by decide

def below : Bytes := .ofString "/d/a/b"

/-- Two levels come below one that is there. -/
theorem below_created : ∃ w',
    Reaches sem (dirCreateHierarchy below 493 none false, onlyD.world)
      (ret 0, w') ∧
    w'.tree.kind [.ofString "d", .ofString "a", .ofString "b"] = some .dir ∧
    Grown (below ++ [47]) onlyD.world w' ∧
      ∀ r, (ret 0 : Program Int) = ret r →
        Created (below ++ [47]) onlyD.world r w' := by
  have hrun := onlyD.reaches_answers (dirCreateHierarchy below 493 none false)
  have hvalue : ((dirCreateHierarchy below 493 none false).eval Files.answer
      onlyD).1 = 0 := by decide +kernel
  rw [hvalue] at hrun
  have hcpath : cpath below false = some (below ++ [47]) := rfl
  have hcreated := hierarchy_created (by decide) hcpath (by decide) hrun
  have hthere := ((hcreated.2 0 rfl).resolve_right fun h => by cases h.1).2.2
  exact ⟨_, hrun, hthere, hcreated⟩

end DirUtilWitness

end DirUtil

end MetaOS
