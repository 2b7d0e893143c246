/-
What src/bootable/recovery/minzip/DirUtil.c leaves when it deletes a hierarchy
of directories or gives it to an owner: both go down into each entry, and
neither leaves the hierarchy.
-/
import MetaOS.DirFiles

namespace MetaOS

namespace DirUtil

open Prog

/-- Nothing has changed but that some of what is at a place or below it may be
gone. -/
structure Pruned (place : List Bytes) (w w' : World) : Prop where
  outside : ∀ other, ¬ place <+: other → w'.tree.kind other = w.tree.kind other
  gone : ∀ other, w'.tree.kind other = w.tree.kind other ∨
    w'.tree.kind other = none
  attrs : w'.attrs = w.attrs
  failed : w.failed = true → w'.failed = true

/-- The hierarchy is gone if 0 is returned, and 0 is returned unless a call has
failed or there was nothing. -/
def Unlinked (path : Bytes) (w : World) (r : Option Int) (w' : World) : Prop :=
  (r = some 0 ∧ ∀ below, w'.tree.kind (resolve path ++ below) = none) ∨
    (r = some (-1) ∧
      (w'.failed = true ∨ w.tree.kind (resolve path) = none))

section Pruned

variable {place : List Bytes} {w w' w'' : World}

theorem Pruned.refl : Pruned place w w :=
  ⟨fun _ _ => rfl, fun _ => .inl rfl, rfl, id⟩

theorem Pruned.fail : Pruned place w w.fail :=
  ⟨fun _ _ => rfl, fun _ => .inl rfl, rfl, fun _ => rfl⟩

theorem Pruned.trans (hfirst : Pruned place w w')
    (hsecond : Pruned place w' w'') : Pruned place w w'' := by
  refine ⟨fun other hother => ?_, fun other => ?_,
    hsecond.attrs.trans hfirst.attrs,
    fun hfailed => hsecond.failed (hfirst.failed hfailed)⟩
  · exact (hsecond.outside other hother).trans (hfirst.outside other hother)
  · rcases hsecond.gone other with hsame | hnone
    · rw [hsame]
      exact hfirst.gone other
    · exact .inr hnone

theorem Pruned.of_below {below : List Bytes}
    (hpruned : Pruned (place ++ below) w w') : Pruned place w w' :=
  ⟨fun other hother => hpruned.outside other fun h =>
      hother ((List.prefix_append place below).trans h),
    hpruned.gone, hpruned.attrs, hpruned.failed⟩

theorem Pruned.removed (hremoved : w.Removed place w') :
    Pruned place w w' := by
  obtain ⟨hkind, hattrs, hfailed⟩ := hremoved
  refine ⟨fun other hother => ?_, fun other => ?_, hattrs,
    fun h => hfailed.trans h⟩
  · rw [hkind, Function.update_of_ne]
    rintro rfl
    exact hother List.prefix_rfl
  · by_cases hsame : other = place
    · rw [hkind, hsame, Function.update_self]
      exact .inr rfl
    · rw [hkind, Function.update_of_ne hsame]
      exact .inl rfl

theorem World.Removed.none_below (hremoved : w.Removed place w')
    (below : List Bytes) : w'.tree.kind (place ++ below) = none := by
  have hplace : w'.tree.kind place = none := by
    rw [hremoved.1, Function.update_self]
  by_cases hnil : below = []
  · rw [hnil, List.append_nil]
    exact hplace
  · refine w'.tree.none_below ?_ hnil
    rw [hplace]
    exact fun h => by cases h

theorem Pruned.plain {path : Bytes} (hpruned : Pruned place w w')
    (hplain : w.tree.Plain path) : w'.tree.Plain path := by
  intro before hbefore
  rcases hpruned.gone (resolve before) with hsame | hnone
  · rw [hsame]
    exact hplain before hbefore
  · rw [hnone]
    exact (Option.some_ne_none _).symm

theorem Fits.pruned {path : Bytes} (hfits : Fits path w.tree)
    (hpruned : Pruned place w w') : Fits path w'.tree := by
  intro below hbelow
  refine hfits below ?_
  rcases hpruned.gone (resolve path ++ below) with hsame | hnone
  · rwa [hsame] at hbelow
  · exact absurd hnone hbelow

end Pruned

/-- The entries that are not gone are still to come. -/
structure Unlinking (path : Bytes) (w : World) (names : List Bytes)
    (w' : World) : Prop where
  pruned : Pruned (resolve path) w w'
  pending : Pending w'.tree (resolve path) names
  left : ∀ name, w'.tree.kind (resolve path ++ [name]) ≠ none → name ∈ names

section Unlinking

variable {path : Bytes} {w w' w'' : World} {name : Bytes}
  {names : List Bytes}

theorem Unlinking.dots (hdots : name = .ofString ".." ∨ name = .ofString ".")
    (hunlinking : Unlinking path w (name :: names) w') :
    Unlinking path w names w' := by
  refine ⟨hunlinking.pruned, hunlinking.pending.tail, fun other hother => ?_⟩
  refine (List.mem_cons.mp (hunlinking.left other hother)).resolve_left ?_
  rintro rfl
  obtain ⟨-, hdot, hdotdot, -⟩ := w'.tree.named hother
  exact hdots.elim hdotdot hdot

/-- An entry that is gone takes nothing else of the directory along. -/
theorem Unlinking.entry (hunlinking : Unlinking path w (name :: names) w')
    (hbelow : Pruned (resolve path ++ [name]) w' w'')
    (hgone : w''.tree.kind (resolve path ++ [name]) = none) :
    Unlinking path w names w'' := by
  refine ⟨hunlinking.pruned.trans hbelow.of_below,
    ⟨hunlinking.pending.tail.nodup, fun other hother => ?_⟩,
    fun other hother => ?_⟩
  · refine (hunlinking.pending.tail.there other hother).imp_right
      fun h => h.imp_right fun hsome => ?_
    rwa [hbelow.outside]
    exact hunlinking.pending.apart hother []
  · have hkept : w''.tree.kind (resolve path ++ [other]) =
        w'.tree.kind (resolve path ++ [other]) :=
      (hbelow.gone _).resolve_right hother
    have hsome := hother
    rw [hkept] at hsome
    refine (List.mem_cons.mp (hunlinking.left other hsome)).resolve_left ?_
    rintro rfl
    exact hother hgone

theorem unlink_safe (hplain : w.tree.Plain path) :
    Safe sem (Pruned (resolve path) w) (Unlinked path w)
      (call (.unlink path) fun (r : Int) => pure (some r)) w := by
  refine ⟨.refl, fun r w' hsem => ?_⟩
  rcases hsem hplain with ⟨-, rfl, -, -, hremoved⟩ | ⟨rfl, rfl⟩
  · exact ⟨.removed hremoved, .inl ⟨rfl, hremoved.none_below⟩⟩
  · exact ⟨.fail, .inr ⟨rfl, .inl rfl⟩⟩

theorem rmdir_safe (hplain : w.tree.Plain path)
    (hpruned : Pruned (resolve path) w w')
    (hleft : w'.failed = true ∨ w'.Empty (resolve path)) :
    Safe sem (Pruned (resolve path) w) (Unlinked path w)
      (call (.rmdir path) fun (r : Int) => pure (some r)) w' := by
  refine ⟨hpruned, fun (r : Int) w'' hsem => ?_⟩
  rcases hsem (hpruned.plain hplain) with
    ⟨-, ⟨rfl, -, -, hremoved⟩ | ⟨rfl, hfull, rfl⟩⟩ | ⟨rfl, rfl⟩
  · exact ⟨hpruned.trans (.removed hremoved), .inl ⟨rfl, hremoved.none_below⟩⟩
  · exact ⟨hpruned, .inr ⟨rfl, .inl (hleft.resolve_right hfull)⟩⟩
  · exact ⟨hpruned.trans .fail, .inr ⟨rfl, .inl rfl⟩⟩

/-- The end of a directory whose entries have been gone through. -/
theorem unlinkEnd_safe {fail : Option Bool} (hplain : w.tree.Plain path)
    (hpruned : Pruned (resolve path) w w')
    (hended : Ended (Unlinking path w) false fail w') :
    Safe sem (Pruned (resolve path) w) (Unlinked path w)
      ((ret fail).andThen fun fail => call .closedir fun (closed : Int) =>
        if fail || closed < 0 then pure (some (-1))
        else call (.rmdir path) fun (r : Int) => pure (some r)) w' := by
  rcases hended with ⟨rfl, hunlinking⟩ | ⟨broken, rfl, -, hfailed⟩
  · refine ⟨hpruned, fun (closed : Int) w'' hsem => ?_⟩
    rcases hsem with ⟨rfl, rfl⟩ | ⟨rfl, rfl⟩
    · refine rmdir_safe hplain hpruned (.inr fun name => ?_)
      by_contra hsome
      exact List.not_mem_nil (hunlinking.left name hsome)
    · exact ⟨hpruned.trans .fail, .inr ⟨rfl, .inl rfl⟩⟩
  · refine ⟨hpruned, fun (closed : Int) w'' hsem => ?_⟩
    have hclosed : Pruned (resolve path) w w'' ∧ w''.failed = true := by
      rcases hsem with ⟨-, rfl⟩ | ⟨-, rfl⟩
      · exact ⟨hpruned, hfailed⟩
      · exact ⟨hpruned.trans .fail, rfl⟩
    dsimp only
    split
    · exact ⟨hclosed.1, .inr ⟨rfl, .inl hclosed.2⟩⟩
    · exact rmdir_safe hplain hclosed.1 (.inl hclosed.2)

/-- Every call of the recursion has a path that fits and is longer than the one
before it. -/
theorem dirUnlinkHierarchy_safe (fuel : Nat) (hplain : w.tree.Plain path)
    (hfits : Fits path w.tree) (hshort : path.length < PATH_MAX)
    (hfuel : PATH_MAX ≤ path.length + fuel) :
    Safe sem (Pruned (resolve path) w) (Unlinked path w)
      (dirUnlinkHierarchy fuel path) w := by
  induction fuel generalizing path w with
  | zero => omega
  | succ fuel ih =>
      simp only [dirUnlinkHierarchy, ask, perform_bind]
      refine ⟨.refl, fun (kind : Option Kind) w₁ hsem => ?_⟩
      rcases hsem hplain with ⟨-, hkind, rfl⟩ | ⟨rfl, rfl⟩
      · cases kind with
        | none => exact ⟨.refl, .inr ⟨rfl, .inr hkind.symm⟩⟩
        | some kind =>
            cases kind with
            | dir =>
                have hlink : w₁.tree.kind (resolve path) ≠ some .link := by
                  rw [← hkind]
                  decide
                refine ⟨.refl, fun (names : Option (List Bytes)) w₂ hsem => ?_⟩
                rcases hsem hlink hplain with
                  ⟨-, names, rfl, -, hlists, rfl⟩ | ⟨rfl, rfl⟩
                · have hstart : Unlinking path w₂ names w₂ :=
                    ⟨.refl, hlists.pending, fun name hname =>
                      (hlists.2 name).mpr (.inr (.inr hname))⟩
                  refine Safe.bind (eachEntry_safe (Unlinking path w₂) rfl
                    rfl Unlinking.pruned
                    (fun h => h.trans .fail) Unlinking.dots
                    (fun {name names w'} hskip hunlinking => ?_) hstart)
                    fun fail w' hpruned hended =>
                      unlinkEnd_safe hplain hpruned hended
                  have hname := hunlinking.pending.some hskip
                  have hfits' := hfits.pruned hunlinking.pruned
                  have hplain' := (hunlinking.pruned.plain hplain).into hname
                  have hplace := resolve_join path (w'.tree.named hname)
                  obtain ⟨hshort', hfuel'⟩ := hfits'.deeper hname hfuel
                  rw [joined_eq hfits' hname]
                  refine (ih hplain' (hfits'.join hname) hshort' hfuel').mono
                    (fun w₁ hbelow => ?_) fun r w₁ hbelow hr => ?_
                  · rw [hplace] at hbelow
                    exact hunlinking.pruned.trans hbelow.of_below
                  · rw [hplace] at hbelow
                    rw [Unlinked, hplace] at hr
                    refine hr.imp (fun h => ⟨h.1, ?_⟩) fun h => ⟨h.1, ?_⟩
                    · have hgone := h.2 []
                      rw [List.append_nil] at hgone
                      exact hunlinking.entry hbelow hgone
                    · exact h.2.resolve_right hname
                · exact ⟨.fail, .inr ⟨rfl, .inl rfl⟩⟩
            | file => exact unlink_safe hplain
            | link => exact unlink_safe hplain
      · exact ⟨.fail, .inr ⟨rfl, .inl rfl⟩⟩

end Unlinking

/-- In every run on a path with no link before a slash, whichever calls fail
and wherever it is cut off, nothing but the hierarchy is touched and nothing in
it is changed; if the run returns 0 the hierarchy is gone, and it returns 0
unless a call fails or there is nothing to delete. -/
theorem hierarchy_unlinked {path : Bytes} {w w' : World}
    {rest : Program (Option Int)} (hplain : w.tree.Plain path)
    (hfits : Fits path w.tree) (hshort : path.length < PATH_MAX)
    (hrun : Reaches sem (dirUnlinkHierarchy PATH_MAX path, w) (rest, w')) :
    Pruned (resolve path) w w' ∧ ∀ r, rest = ret r → Unlinked path w r w' := by
  have hsafe := (dirUnlinkHierarchy_safe PATH_MAX hplain hfits hshort
    (Nat.le_add_left _ _)).reaches hrun
  refine ⟨hsafe.now, fun r hreturn => ?_⟩
  rw [hreturn] at hsafe
  exact hsafe.2

/-- Nothing has changed but attributes of what is at a place or below it and is
not a link. -/
structure Adjusted (place : List Bytes) (w w' : World) : Prop where
  tree : w'.tree = w.tree
  outside : ∀ other, ¬ place <+: other → w'.attrs other = w.attrs other
  links : ∀ other, w.tree.kind other = some .link →
    w'.attrs other = w.attrs other
  failed : w.failed = true → w'.failed = true

def Permissions.set (permissions : Permissions) (kind : Kind) (attr : Attr) :
    Attr :=
  { attr.chown permissions.uid permissions.gid with
    mode := permissions.mode kind }

/-- What is at a place or below it and is not a link has the attributes. -/
def Permissions.Hold (permissions : Permissions) (place : List Bytes)
    (w w' : World) : Prop :=
  ∀ below kind, w.tree.kind (place ++ below) = some kind → kind ≠ .link →
    w'.attrs (place ++ below) =
      permissions.set kind (w.attrs (place ++ below))

/-- The hierarchy has the attributes if 0 is returned, and 0 is returned unless
a call has failed or there was nothing. -/
def Permitted (permissions : Permissions) (path : Bytes) (w : World)
    (r : Option Int) (w' : World) : Prop :=
  (r = some 0 ∧ permissions.Hold (resolve path) w w') ∨
    (r = some (-1) ∧
      (w'.failed = true ∨ w.tree.kind (resolve path) = none))

section Adjusted

variable {place : List Bytes} {w w' w'' : World}

theorem Adjusted.refl : Adjusted place w w :=
  ⟨rfl, fun _ _ => rfl, fun _ _ => rfl, id⟩

theorem Adjusted.fail : Adjusted place w w.fail :=
  ⟨rfl, fun _ _ => rfl, fun _ _ => rfl, fun _ => rfl⟩

theorem Adjusted.trans (hfirst : Adjusted place w w')
    (hsecond : Adjusted place w' w'') : Adjusted place w w'' := by
  refine ⟨hsecond.tree.trans hfirst.tree, fun other hother => ?_,
    fun other hlink => ?_, fun h => hsecond.failed (hfirst.failed h)⟩
  · exact (hsecond.outside other hother).trans (hfirst.outside other hother)
  · rw [← hfirst.links other hlink]
    rw [← hfirst.tree] at hlink
    exact hsecond.links other hlink

theorem Adjusted.of_below {below : List Bytes}
    (hadjusted : Adjusted (place ++ below) w w') : Adjusted place w w' :=
  ⟨hadjusted.tree, fun other hother => hadjusted.outside other fun h =>
      hother ((List.prefix_append place below).trans h),
    hadjusted.links, hadjusted.failed⟩

theorem Adjusted.setAttr (hlink : w.tree.kind place ≠ some .link)
    (attr : Attr) : Adjusted place w (w.setAttr place attr) := by
  refine ⟨rfl, fun other hother => Function.update_of_ne ?_ _ _,
    fun other hother => Function.update_of_ne ?_ _ _, id⟩
  · rintro rfl
    exact hother List.prefix_rfl
  · rintro rfl
    exact hlink hother

end Adjusted

/-- What is at the path has its attributes. -/
structure Given (permissions : Permissions) (kind : Kind) (path : Bytes)
    (w w' : World) : Prop where
  adjusted : Adjusted (resolve path) w w'
  attrs : w'.attrs = Function.update w.attrs (resolve path)
    (permissions.set kind (w.attrs (resolve path)))

/-- The entries that are still to come are as they were, the others have their
attributes. -/
structure Setting (permissions : Permissions) (path : Bytes) (w : World)
    (names : List Bytes) (w' : World) : Prop where
  adjusted : Adjusted (resolve path) w w'
  pending : Pending w.tree (resolve path) names
  here : w'.attrs (resolve path) =
    permissions.set .dir (w.attrs (resolve path))
  todo : ∀ name ∈ names, ∀ below,
    w'.attrs (resolve path ++ name :: below) =
      w.attrs (resolve path ++ name :: below)
  done : ∀ name ∉ names, ∀ below kind,
    w.tree.kind (resolve path ++ name :: below) = some kind → kind ≠ .link →
      w'.attrs (resolve path ++ name :: below) =
        permissions.set kind (w.attrs (resolve path ++ name :: below))

section Setting

variable {permissions : Permissions} {path : Bytes} {w w' w'' : World}
  {name : Bytes} {names : List Bytes}

theorem Given.start (hgiven : Given permissions .dir path w w')
    (hlists : w'.Lists (resolve path) names) :
    Setting permissions path w names w' := by
  have hpending := hlists.pending
  rw [hgiven.adjusted.tree] at hpending
  refine ⟨hgiven.adjusted, hpending, ?_, fun name _ below => ?_,
    fun name hname below kind hkind => ?_⟩
  · rw [hgiven.attrs, Function.update_self]
  · rw [hgiven.attrs, Function.update_of_ne]
    intro hsame
    have hnil := List.append_cancel_left (hsame.trans (List.append_nil _).symm)
    exact List.cons_ne_nil _ _ hnil
  · refine absurd ((hlists.2 name).mpr (.inr (.inr ?_))) hname
    rw [hgiven.adjusted.tree]
    have hsome : w.tree.kind (resolve path ++ name :: below) ≠ none := by
      rw [hkind]
      exact Option.some_ne_none kind
    exact w.tree.some_above hsome

theorem Setting.dots (hdots : name = .ofString ".." ∨ name = .ofString ".")
    (hsetting : Setting permissions path w (name :: names) w') :
    Setting permissions path w names w' := by
  refine ⟨hsetting.adjusted, hsetting.pending.tail, hsetting.here,
    fun other hother => hsetting.todo other (List.mem_cons_of_mem _ hother),
    fun other hother below kind hkind hlink => ?_⟩
  refine hsetting.done other ?_ below kind hkind hlink
  rw [List.mem_cons, not_or]
  refine ⟨?_, hother⟩
  rintro rfl
  have hsome : w.tree.kind (resolve path ++ other :: below) ≠ none := by
    rw [hkind]
    exact Option.some_ne_none kind
  obtain ⟨-, hdot, hdotdot, -⟩ := w.tree.named (w.tree.some_above hsome)
  exact hdots.elim hdotdot hdot

/-- An entry is given its attributes, and nothing else of the directory. -/
theorem Setting.entry
    (hsetting : Setting permissions path w (name :: names) w')
    (hbelow : Adjusted (resolve path ++ [name]) w' w'')
    (hhold : permissions.Hold (resolve path ++ [name]) w' w'') :
    Setting permissions path w names w'' := by
  refine ⟨hsetting.adjusted.trans hbelow.of_below, hsetting.pending.tail, ?_,
    fun other hother below => ?_,
    fun other hother below kind hkind hlink => ?_⟩
  · rw [hbelow.outside, hsetting.here]
    intro hprefix
    have hlength := hprefix.length_le
    rw [List.length_append, List.length_singleton] at hlength
    omega
  · rw [hbelow.outside _ (hsetting.pending.apart hother below)]
    exact hsetting.todo other (List.mem_cons_of_mem _ hother) below
  · by_cases hsame : other = name
    · subst hsame
      have hplace : resolve path ++ other :: below =
          (resolve path ++ [other]) ++ below := by
        rw [List.append_assoc, List.singleton_append]
      rw [← hsetting.todo other List.mem_cons_self below]
      rw [← hsetting.adjusted.tree] at hkind
      rw [hplace] at hkind ⊢
      exact hhold below kind hkind hlink
    · rw [hbelow.outside]
      · refine hsetting.done other ?_ below kind hkind hlink
        rw [List.mem_cons, not_or]
        exact ⟨hsame, hother⟩
      · rw [List.prefix_append_right_inj, List.singleton_prefix_cons_iff]
        exact fun h => hsame h.symm

theorem Setting.hold (hsetting : Setting permissions path w [] w')
    (hdir : w.tree.kind (resolve path) = some .dir) :
    permissions.Hold (resolve path) w w' := by
  intro below kind hkind hlink
  cases below with
  | nil =>
      rw [List.append_nil, hdir] at hkind
      cases hkind
      rw [List.append_nil]
      exact hsetting.here
  | cons name below =>
      exact hsetting.done name List.not_mem_nil below kind hkind hlink

/-- The owner comes first and then the mode; what follows finds both. -/
theorem given_safe {kind : Kind} (hplain : w.tree.Plain path)
    (hkind : w.tree.kind (resolve path) = some kind) (hlink : kind ≠ .link)
    {next : Program (Option Int)}
    (hnext : ∀ w', Given permissions kind path w w' →
      Safe sem (Adjusted (resolve path) w) (Permitted permissions path w) next
        w') :
    Safe sem (Adjusted (resolve path) w) (Permitted permissions path w)
      (call (.chown path permissions.uid permissions.gid) fun (owned : Int) =>
        if owned ≠ 0 then pure (some (-1))
        else call (.chmod path (permissions.mode kind)) fun (set : Int) =>
          if set ≠ 0 then pure (some (-1)) else next) w := by
  have hno : w.tree.kind (resolve path) ≠ some .link := by
    rw [hkind]
    exact fun h => hlink (Option.some.inj h)
  refine ⟨.refl, fun (owned : Int) w₁ hsem => ?_⟩
  rcases hsem hno hplain with ⟨-, rfl, -, mode, rfl⟩ | ⟨rfl, rfl⟩
  · have howned := Adjusted.setAttr hno
      { (w.attrs (resolve path)).chown permissions.uid permissions.gid with
        mode := mode }
    refine ⟨howned, fun (set : Int) w₂ hsem => ?_⟩
    rcases hsem hno hplain with ⟨-, rfl, -, rfl⟩ | ⟨rfl, rfl⟩
    · refine hnext _ ⟨howned.trans (.setAttr ?_ _), ?_⟩
      · exact hno
      · simp only [World.setAttr, Function.update_self, Function.update_idem]
        rfl
    · exact ⟨howned.trans .fail, .inr ⟨rfl, .inl rfl⟩⟩
  · exact ⟨.fail, .inr ⟨rfl, .inl rfl⟩⟩

theorem hold_of_not_dir {kind : Kind}
    (hkind : w.tree.kind (resolve path) = some kind) (hdir : kind ≠ .dir)
    (hhere : kind ≠ .link → w'.attrs (resolve path) =
      permissions.set kind (w.attrs (resolve path))) :
    permissions.Hold (resolve path) w w' := by
  intro below other hother hlink
  by_cases hnil : below = []
  · rw [hnil, List.append_nil, hkind] at hother
    cases hother
    rw [hnil, List.append_nil]
    exact hhere hlink
  · rw [w.tree.none_below ?_ hnil] at hother
    · cases hother
    · rw [hkind]
      exact fun h => hdir (Option.some.inj h)

/-- The end of a directory whose entries have been gone through. -/
theorem setEnd_safe {fail : Option Bool}
    (hdir : w.tree.kind (resolve path) = some .dir)
    (hadjusted : Adjusted (resolve path) w w')
    (hended : Ended (Setting permissions path w) true fail w') :
    Safe sem (Adjusted (resolve path) w) (Permitted permissions path w)
      ((ret fail).andThen fun fail => call .closedir fun (closed : Int) =>
        if fail || closed ≠ 0 then pure (some (-1))
        else pure (some 0)) w' := by
  rcases hended with ⟨rfl, hsetting⟩ | ⟨broken, rfl, hbroken, hfailed⟩
  · refine ⟨hadjusted, fun (closed : Int) w'' hsem => ?_⟩
    rcases hsem with ⟨rfl, rfl⟩ | ⟨rfl, rfl⟩
    · exact ⟨hadjusted, .inl ⟨rfl, hsetting.hold hdir⟩⟩
    · exact ⟨hadjusted.trans .fail, .inr ⟨rfl, .inl rfl⟩⟩
  · obtain rfl : broken = true := hbroken.elim id id
    refine ⟨hadjusted, fun (closed : Int) w'' hsem => ?_⟩
    rcases hsem with ⟨-, rfl⟩ | ⟨-, rfl⟩
    · exact ⟨hadjusted, .inr ⟨rfl, .inl hfailed⟩⟩
    · exact ⟨hadjusted.trans .fail, .inr ⟨rfl, .inl rfl⟩⟩

/-- The recursion is bounded as the one that deletes is. -/
theorem dirSetHierarchyPermissions_safe (fuel : Nat)
    (hplain : w.tree.Plain path) (hfits : Fits path w.tree)
    (hshort : path.length < PATH_MAX)
    (hfuel : PATH_MAX ≤ path.length + fuel) :
    Safe sem (Adjusted (resolve path) w) (Permitted permissions path w)
      (dirSetHierarchyPermissions permissions fuel path) w := by
  induction fuel generalizing path w with
  | zero => omega
  | succ fuel ih =>
      simp only [dirSetHierarchyPermissions, ask, perform_bind]
      refine ⟨.refl, fun (kind : Option Kind) w₁ hsem => ?_⟩
      rcases hsem hplain with ⟨-, hkind, rfl⟩ | ⟨rfl, rfl⟩
      · cases kind with
        | none => exact ⟨.refl, .inr ⟨rfl, .inr hkind.symm⟩⟩
        | some kind =>
            cases kind with
            | link =>
                refine ⟨.refl, .inl ⟨rfl, ?_⟩⟩
                refine hold_of_not_dir hkind.symm (by decide) fun h => ?_
                exact absurd rfl h
            | file =>
                refine given_safe hplain hkind.symm (by decide)
                  fun w' hgiven => ?_
                refine ⟨hgiven.adjusted, .inl ⟨rfl, ?_⟩⟩
                refine hold_of_not_dir hkind.symm (by decide) fun _ => ?_
                rw [hgiven.attrs, Function.update_self]
            | dir =>
                refine given_safe hplain hkind.symm (by decide)
                  fun w' hgiven => ?_
                have hplain' := hplain
                rw [← hgiven.adjusted.tree] at hplain'
                have hlink : w'.tree.kind (resolve path) ≠ some .link := by
                  rw [hgiven.adjusted.tree, ← hkind]
                  decide
                refine ⟨hgiven.adjusted,
                  fun (names : Option (List Bytes)) w₂ hsem => ?_⟩
                rcases hsem hlink hplain' with
                  ⟨-, names, rfl, -, hlists, rfl⟩ | ⟨rfl, rfl⟩
                · refine Safe.bind (eachEntry_safe
                    (Setting permissions path w₁) rfl rfl Setting.adjusted
                    (fun h => h.trans .fail) Setting.dots
                    (fun {name names w'} hskip hsetting => ?_)
                    (hgiven.start hlists))
                    fun fail w' hadjusted hended =>
                      setEnd_safe hkind.symm hadjusted hended
                  have hname := hsetting.pending.some hskip
                  have hplace := resolve_join path (w₁.tree.named hname)
                  obtain ⟨hshort', hfuel'⟩ := hfits.deeper hname hfuel
                  rw [joined_eq hfits hname]
                  have hfits' := hfits.join hname
                  have hplain' := hplain.into hname
                  rw [← hsetting.adjusted.tree] at hfits' hplain'
                  refine (ih hplain' hfits' hshort' hfuel').mono
                    (fun w₂ hbelow => ?_) fun r w₂ hbelow hr => ?_
                  · rw [hplace] at hbelow
                    exact hsetting.adjusted.trans hbelow.of_below
                  · rw [hplace] at hbelow
                    rw [Permitted, hplace] at hr
                    refine hr.imp (fun h => ⟨h.1, ?_⟩) fun h => ⟨h.1, ?_⟩
                    · exact hsetting.entry hbelow h.2
                    · refine h.2.resolve_right ?_
                      rw [hsetting.adjusted.tree]
                      exact hname
                · exact ⟨hgiven.adjusted.trans .fail, .inr ⟨rfl, .inl rfl⟩⟩
      · exact ⟨.fail, .inr ⟨rfl, .inl rfl⟩⟩

end Setting

/-- In every run on a path with no link before a slash, whichever calls fail
and wherever it is cut off, no file comes or goes and only what is in the
hierarchy and is not a link is given other attributes; if the run returns 0 all
of it has those that are asked for, and it returns 0 unless a call fails or
there is nothing. -/
theorem hierarchy_permitted {permissions : Permissions} {path : Bytes}
    {w w' : World} {rest : Program (Option Int)} (hplain : w.tree.Plain path)
    (hfits : Fits path w.tree) (hshort : path.length < PATH_MAX)
    (hrun : Reaches sem
      (dirSetHierarchyPermissions permissions PATH_MAX path, w) (rest, w')) :
    Adjusted (resolve path) w w' ∧
      ∀ r, rest = ret r → Permitted permissions path w r w' := by
  have hsafe := (dirSetHierarchyPermissions_safe PATH_MAX hplain hfits hshort
    (Nat.le_add_left _ _)).reaches hrun
  refine ⟨hsafe.now, fun r hreturn => ?_⟩
  rw [hreturn] at hsafe
  exact hsafe.2

namespace DirUtilWitness

def d : Bytes := .ofString "d"

def e : Bytes := .ofString "e"

def f : Bytes := .ofString "f"

def l : Bytes := .ofString "l"

/-- `d/e/f` and another file `f`, and a link `d/l`. -/
def nested : Files where
  log := [([d], some .dir), ([d, e], some .dir), ([d, e, f], some .file),
    ([d, l], some .link), ([f], some .file)]
  attrs := fun _ => ⟨0, 0, 493⟩
  failed := false
  sound := by decide

def path : Bytes := .ofString "/d"

theorem nested_fits : Fits path nested.world.tree :=
  Files.fits (by decide) (by decide)

/-- The link, the file and the two directories go, and the other file stays. -/
theorem d_unlinked : ∃ w',
    Reaches sem (dirUnlinkHierarchy PATH_MAX path, nested.world)
      (ret (some 0), w') ∧
    w'.tree.kind [f] = some .file ∧
    Pruned (resolve path) nested.world w' ∧
      ∀ r, (ret (some 0) : Program (Option Int)) = ret r →
        Unlinked path nested.world r w' := by
  have hrun := nested.reaches_answers (dirUnlinkHierarchy PATH_MAX path)
  have hvalue : ((dirUnlinkHierarchy PATH_MAX path).eval Files.answer
      nested).1 = some 0 := by decide +kernel
  rw [hvalue] at hrun
  have hunlinked :=
    hierarchy_unlinked (by decide) nested_fits (by decide) hrun
  refine ⟨_, hrun, ?_, hunlinked⟩
  rw [hunlinked.1.outside [f] (by decide)]
  rfl

def user : Permissions where
  uid := 1000
  gid := 1000
  dirMode := 448
  fileMode := 384

/-- The file in the inner directory is given to the user, the link is not. -/
theorem d_permitted : ∃ w',
    Reaches sem
      (dirSetHierarchyPermissions user PATH_MAX path, nested.world)
      (ret (some 0), w') ∧
    w'.attrs [d, e, f] = ⟨1000, 1000, 384⟩ ∧
    w'.attrs [d, l] = ⟨0, 0, 493⟩ ∧
    Adjusted (resolve path) nested.world w' ∧
      ∀ r, (ret (some 0) : Program (Option Int)) = ret r →
        Permitted user path nested.world r w' := by
  have hrun := nested.reaches_answers
    (dirSetHierarchyPermissions user PATH_MAX path)
  have hvalue : ((dirSetHierarchyPermissions user PATH_MAX path).eval
      Files.answer nested).1 = some 0 := by decide +kernel
  rw [hvalue] at hrun
  have hpermitted :=
    hierarchy_permitted (by decide) nested_fits (by decide) hrun
  have hhold : user.Hold (resolve path) nested.world _ :=
    ((hpermitted.2 _ rfl).resolve_right fun h => by cases h.1).2
  refine ⟨_, hrun, ?_, ?_, hpermitted⟩
  · exact hhold [e, f] .file rfl (by decide)
  · exact hpermitted.1.links [d, l] rfl

end DirUtilWitness

end DirUtil

end MetaOS
