import Mathlib.Data.List.Basic

/-!
# Flat code with conditionals

A machine reads operations one by one and remembers in a list of truth values which
conditionals it is in.  The same code can be read as a tree of blocks and branches, of
which only the branches that are taken are run and the others are passed over.  Both
agree, also on code whose conditionals are not closed or not opened.
-/

namespace NestedCode

open List Option

/-- What an operation does to the nesting. -/
inductive Kind where
  | plain
  | opens
  | toggles
  | closes

/-- A machine: what an operation does where it is executed, what an operation that opens a
conditional finds, and what is left to do where nothing is executed. -/
structure Machine (α S : Type) where
  kind : α → Kind
  exec : α → S → Option S
  test : α → S → Option (Bool × S)
  pass : α → S → Option S

mutual

/-- Operations and conditionals in a row. -/
inductive Block (α : Type) where
  | done
  | plain (op : α) (more : Block α)
  | cond (op : α) (branches : Branches α) (more : Block α)

/-- The branches of a conditional, up to the operation that closes it. -/
inductive Branches (α : Type) where
  | last (body : Block α) (op : α)
  | toggle (body : Block α) (op : α) (more : Branches α)

end

variable {α S : Type}

mutual

/-- The operations of a block. -/
def Block.flatten : Block α → List α
  | .done => []
  | .plain op more => op :: more.flatten
  | .cond op branches more => op :: (branches.flatten ++ more.flatten)

/-- The operations of the branches, with the one that closes them. -/
def Branches.flatten : Branches α → List α
  | .last body op => body.flatten ++ [op]
  | .toggle body op more => body.flatten ++ op :: more.flatten

end

/-- Code read from its end: the conditionals that are closed but not opened yet, the
innermost first, and the block behind them. -/
structure Unopened (α : Type) where
  inner : List (Branches α)
  block : Block α

/-- Put something in front of the first branch. -/
def Branches.onFirst (f : Block α → Block α) : Branches α → Branches α
  | .last body op => .last (f body) op
  | .toggle body op more => .toggle (f body) op more

/-- Put something in front. -/
def Unopened.onFirst (f : Block α → Block α) : Unopened α → Unopened α
  | ⟨[], block⟩ => ⟨[], f block⟩
  | ⟨branches :: inner, block⟩ => ⟨branches.onFirst f :: inner, block⟩

/-- One more operation in front. -/
def nestOp (kind : α → Kind) (op : α) (code : Unopened α) : Option (Unopened α) :=
  match kind op, code.inner with
  | .plain, _ => some (code.onFirst (.plain op))
  | .opens, branches :: inner => some (Unopened.onFirst (.cond op branches) ⟨inner, code.block⟩)
  | .toggles, branches :: inner => some ⟨.toggle .done op branches :: inner, code.block⟩
  | .closes, inner => some ⟨.last .done op :: inner, code.block⟩
  | _, [] => none

/-- Code read from its end; `none` where a conditional is opened or toggled that is not
closed. -/
def nestFrom (kind : α → Kind) : List α → Option (Unopened α)
  | [] => some ⟨[], .done⟩
  | op :: ops => (nestFrom kind ops).bind (nestOp kind op)

/-- The block that a whole code is, if its conditionals are balanced. -/
def nest (kind : α → Kind) (ops : List α) : Option (Block α) :=
  (nestFrom kind ops).bind fun code =>
    match code.inner with
    | [] => some code.block
    | _ :: _ => none

/-- The operations that were read. -/
def Unopened.flatten (code : Unopened α) : List α :=
  code.inner.flatMap Branches.flatten ++ code.block.flatten

variable {f : Block α → Block α} {ops : List α}

theorem Branches.flatten_onFirst
    (hf : ∀ block, (f block).flatten = ops ++ block.flatten) (branches : Branches α) :
    (branches.onFirst f).flatten = ops ++ branches.flatten := by
  cases branches with
  | last body op => rw [onFirst, flatten, flatten, hf, append_assoc]
  | toggle body op more => rw [onFirst, flatten, flatten, hf, append_assoc]

theorem Unopened.flatten_onFirst
    (hf : ∀ block, (f block).flatten = ops ++ block.flatten) (code : Unopened α) :
    (code.onFirst f).flatten = ops ++ code.flatten := by
  obtain ⟨inner, block⟩ := code
  cases inner with
  | nil => exact hf block
  | cons branches inner =>
    simp only [onFirst, flatten, flatMap_cons, Branches.flatten_onFirst hf, append_assoc]

variable {kind : α → Kind}

theorem flatten_nestOp {op : α} {code code' : Unopened α}
    (h : nestOp kind op code = some code') : code'.flatten = op :: code.flatten := by
  obtain ⟨inner, block⟩ := code
  unfold nestOp at h
  split at h
  · cases h
    refine @Unopened.flatten_onFirst α _ [op] (fun _ => ?_) _
    rw [Block.flatten, singleton_append]
  · rename_i branches inner _ hinner
    cases h
    subst hinner
    have hcond : ∀ block, (Block.cond op branches block).flatten =
        op :: branches.flatten ++ block.flatten := by
      intro block
      rw [Block.flatten, cons_append]
    rw [Unopened.flatten_onFirst hcond]
    simp only [Unopened.flatten, flatMap_cons, cons_append, append_assoc]
  · rename_i branches inner _ hinner
    cases h
    subst hinner
    simp only [Unopened.flatten, flatMap_cons, Branches.flatten, Block.flatten, nil_append, cons_append]
  · cases h
    simp only [Unopened.flatten, flatMap_cons, Branches.flatten, Block.flatten, nil_append, cons_append]
  · cases h

/-- **The block has the operations of the code**, in their order. -/
theorem flatten_nest {block : Block α} (h : nest kind ops = some block) : block.flatten = ops := by
  have hfrom : ∀ ops (code : Unopened α), nestFrom kind ops = some code → code.flatten = ops := by
    intro ops
    induction ops with
    | nil =>
      intro code h
      cases h
      rfl
    | cons op ops ih =>
      intro code h
      obtain ⟨behind, hbehind, hop⟩ := bind_eq_some_iff.mp h
      rw [flatten_nestOp hop, ih behind hbehind]
  obtain ⟨⟨inner, whole⟩, hcode, hinner⟩ := bind_eq_some_iff.mp h
  cases inner with
  | nil =>
    cases hinner
    exact hfrom ops _ hcode
  | cons _ _ => cases hinner

mutual

/-- Every operation stands where its kind belongs. -/
def Block.Formed (kind : α → Kind) : Block α → Prop
  | .done => True
  | .plain op more => kind op = .plain ∧ more.Formed kind
  | .cond op branches more => kind op = .opens ∧ branches.Formed kind ∧ more.Formed kind

/-- The operations between the branches toggle, and the last one closes. -/
def Branches.Formed (kind : α → Kind) : Branches α → Prop
  | .last body op => body.Formed kind ∧ kind op = .closes
  | .toggle body op more => body.Formed kind ∧ kind op = .toggles ∧ more.Formed kind

end

/-- All parts of code that was read from its end are formed. -/
def Unopened.Formed (kind : α → Kind) (code : Unopened α) : Prop :=
  (∀ branches ∈ code.inner, branches.Formed kind) ∧ code.block.Formed kind

theorem Unopened.Formed.onFirst {code : Unopened α}
    (h : code.Formed kind) (hf : ∀ block : Block α, block.Formed kind → (f block).Formed kind) :
    (code.onFirst f).Formed kind := by
  obtain ⟨inner, block⟩ := code
  cases inner with
  | nil => exact ⟨h.1, hf block h.2⟩
  | cons branches inner =>
    obtain ⟨hfirst, hinner⟩ := forall_mem_cons.mp h.1
    refine ⟨forall_mem_cons.mpr ⟨?_, hinner⟩, h.2⟩
    cases branches with
    | last body op =>
      rw [Branches.Formed] at hfirst
      rw [Branches.onFirst, Branches.Formed]
      exact ⟨hf body hfirst.1, hfirst.2⟩
    | toggle body op more =>
      rw [Branches.Formed] at hfirst
      rw [Branches.onFirst, Branches.Formed]
      exact ⟨hf body hfirst.1, hfirst.2⟩

theorem formed_nestOp {op : α} {code code' : Unopened α} (hcode : code.Formed kind)
    (h : nestOp kind op code = some code') : code'.Formed kind := by
  obtain ⟨inner, block⟩ := code
  have hdone : (Block.done : Block α).Formed kind := by
    rw [Block.Formed]
    trivial
  unfold nestOp at h
  split at h
  · rename_i hkind
    cases h
    refine hcode.onFirst fun block hblock => ?_
    rw [Block.Formed]
    exact ⟨hkind, hblock⟩
  · rename_i branches inner hkind hinner
    cases h
    subst hinner
    obtain ⟨hfirst, hrest⟩ := forall_mem_cons.mp hcode.1
    refine Unopened.Formed.onFirst ⟨hrest, hcode.2⟩ fun block hblock => ?_
    rw [Block.Formed]
    exact ⟨hkind, hfirst, hblock⟩
  · rename_i branches inner hkind hinner
    cases h
    subst hinner
    obtain ⟨hfirst, hrest⟩ := forall_mem_cons.mp hcode.1
    refine ⟨forall_mem_cons.mpr ⟨?_, hrest⟩, hcode.2⟩
    rw [Branches.Formed]
    exact ⟨hdone, hkind, hfirst⟩
  · rename_i hkind
    cases h
    refine ⟨forall_mem_cons.mpr ⟨?_, hcode.1⟩, hcode.2⟩
    rw [Branches.Formed]
    exact ⟨hdone, hkind⟩
  · cases h

/-- One block behind another. -/
def Block.append : Block α → Block α → Block α
  | .done, behind => behind
  | .plain op more, behind => .plain op (more.append behind)
  | .cond op branches more, behind => .cond op branches (more.append behind)

theorem Block.append_done (block : Block α) : block.append .done = block := by
  match block with
  | .done => rfl
  | .plain op more => rw [append, append_done more]
  | .cond op branches more => rw [append, append_done more]

theorem Unopened.onFirst_onFirst (f g : Block α → Block α) (code : Unopened α) :
    (code.onFirst g).onFirst f = code.onFirst fun block => f (g block) := by
  obtain ⟨inner, block⟩ := code
  cases inner with
  | nil => rfl
  | cons branches inner =>
    cases branches with
    | last body op => rfl
    | toggle body op more => rfl

mutual

theorem nestFrom_block {kind : α → Kind} {ops : List α} {code : Unopened α} (block : Block α)
    (hformed : block.Formed kind) (hops : nestFrom kind ops = some code) :
    nestFrom kind (block.flatten ++ ops) = some (code.onFirst block.append) := by
  match block with
  | .done =>
    have hself : code.onFirst (Block.append .done) = code := by
      obtain ⟨inner, block⟩ := code
      cases inner with
      | nil => rfl
      | cons branches inner =>
        cases branches with
        | last body op => rfl
        | toggle body op more => rfl
    rw [hself]
    exact hops
  | .plain op more =>
    rw [Block.Formed] at hformed
    rw [Block.flatten, cons_append, nestFrom, nestFrom_block more hformed.2 hops, bind_some, nestOp]
    simp only [hformed.1, Unopened.onFirst_onFirst]
    rfl
  | .cond op branches more =>
    rw [Block.Formed] at hformed
    rw [Block.flatten, cons_append, append_assoc, nestFrom,
      nestFrom_branches branches hformed.2.1 (nestFrom_block more hformed.2.2 hops), bind_some,
      nestOp]
    simp only [hformed.1]
    exact congrArg some (Unopened.onFirst_onFirst (.cond op branches) more.append code)

theorem nestFrom_branches {kind : α → Kind} {ops : List α} {code : Unopened α} (branches : Branches α)
    (hformed : branches.Formed kind) (hops : nestFrom kind ops = some code) :
    nestFrom kind (branches.flatten ++ ops) = some ⟨branches :: code.inner, code.block⟩ := by
  match branches with
  | .last body op =>
    rw [Branches.Formed] at hformed
    have hclosed : nestFrom kind (op :: ops) = some ⟨.last .done op :: code.inner, code.block⟩ := by
      rw [nestFrom, hops, bind_some, nestOp]
      simp only [hformed.2]
    rw [Branches.flatten, append_assoc, singleton_append, nestFrom_block body hformed.1 hclosed,
      Unopened.onFirst, Branches.onFirst, body.append_done]
  | .toggle body op more =>
    rw [Branches.Formed] at hformed
    have htoggled : nestFrom kind (op :: (more.flatten ++ ops)) =
        some ⟨.toggle .done op more :: code.inner, code.block⟩ := by
      rw [nestFrom, nestFrom_branches more hformed.2.2 hops, bind_some, nestOp]
      simp only [hformed.2.1]
    rw [Branches.flatten, append_assoc, cons_append, nestFrom_block body hformed.1 htoggled,
      Unopened.onFirst, Branches.onFirst, body.append_done]

end

/-- **Code is read as the one formed block that it flattens from.** -/
theorem nest_eq_some {block : Block α} :
    nest kind ops = some block ↔ block.Formed kind ∧ block.flatten = ops := by
  constructor
  · intro h
    refine ⟨?_, flatten_nest h⟩
    have hfrom : ∀ ops (code : Unopened α), nestFrom kind ops = some code → code.Formed kind := by
      intro ops
      induction ops with
      | nil =>
        intro code h
        cases h
        refine ⟨fun _ hmem => absurd hmem not_mem_nil, ?_⟩
        rw [Block.Formed]
        trivial
      | cons op ops ih =>
        intro code h
        obtain ⟨behind, hbehind, hop⟩ := bind_eq_some_iff.mp h
        exact formed_nestOp (ih behind hbehind) hop
    obtain ⟨⟨inner, whole⟩, hcode, hinner⟩ := bind_eq_some_iff.mp h
    cases inner with
    | nil =>
      cases hinner
      exact (hfrom ops _ hcode).2
    | cons _ _ => cases hinner
  · rintro ⟨hformed, rfl⟩
    have hread := @nestFrom_block α kind [] ⟨[], .done⟩ block hformed rfl
    rw [append_nil] at hread
    rw [nest, hread, bind_some]
    exact congrArg some block.append_done

namespace Machine

variable (m : Machine α S)

/-- Operations that are not executed. -/
def skip (ops : List α) (s : S) : Option S := ops.foldlM (fun s op => m.pass op s) s

mutual

/-- Run a block that is taken. -/
def runBlock : Block α → S → Option S
  | .done, s => some s
  | .plain op more, s => (m.exec op s).bind (runBlock more)
  | .cond op branches more, s =>
    (m.test op s).bind fun found => (runBranches branches found.1 found.2).bind (runBlock more)

/-- Run every second branch: the first if it is taken, and else the second. -/
def runBranches : Branches α → Bool → S → Option S
  | .last body op, taken, s =>
    (if taken then runBlock body s else m.skip body.flatten s).bind (m.pass op)
  | .toggle body op more, taken, s =>
    ((if taken then runBlock body s else m.skip body.flatten s).bind (m.pass op)).bind
      (runBranches more !taken)

end

/-- One operation of flat code; the innermost truth value is first. -/
def step (op : α) (taken : List Bool) (s : S) : Option (List Bool × S) :=
  match m.kind op, taken with
  | .plain, _ => (if taken.all id then m.exec op s else m.pass op s).map fun s => (taken, s)
  | .opens, _ =>
    (if taken.all id then m.test op s else (m.pass op s).map fun s => (false, s)).map
      fun found => (found.1 :: taken, found.2)
  | .toggles, innermost :: outer => (m.pass op s).map fun s => ((!innermost) :: outer, s)
  | .closes, _ :: outer => (m.pass op s).map fun s => (outer, s)
  | _, [] => none

/-- Flat code. -/
def run : List α → List Bool → S → Option (List Bool × S)
  | [], taken, s => some (taken, s)
  | op :: ops, taken, s => (m.step op taken s).bind fun next => run ops next.1 next.2

/-- Flat code that ends outside of all conditionals. -/
def runFlat (ops : List α) (taken : List Bool) (s : S) : Option S :=
  (m.run ops taken s).bind fun last => if last.1.isEmpty then some last.2 else none

/-- What is left to run of code that was read from its end, in conditionals with these
truth values. -/
def resume (block : Block α) : List (Branches α) → List Bool → S → Option S
  | [], [], s => m.runBlock block s
  | branches :: inner, innermost :: outer, s =>
    (if outer.all id then m.runBranches branches innermost s else m.skip branches.flatten s).bind
      (resume block inner outer)
  | _, _, _ => none

variable {m}

theorem skip_cons {op : α} {ops : List α} {s : S} :
    m.skip (op :: ops) s = (m.pass op s).bind (m.skip ops) := List.foldlM_cons

theorem skip_append {ops ops' : List α} {s : S} :
    m.skip (ops ++ ops') s = (m.skip ops s).bind (m.skip ops') := List.foldlM_append

theorem skip_nil {s : S} : m.skip [] s = some s := rfl

/-- Something that runs in front of a block. -/
structure InFront (m : Machine α S) (f : Block α → Block α) (ops : List α) (go : S → Option S) : Prop where
  flatten : ∀ block, (f block).flatten = ops ++ block.flatten
  runBlock : ∀ block s, m.runBlock (f block) s = (go s).bind (m.runBlock block)

variable {f : Block α → Block α} {ops : List α} {go : S → Option S}

theorem InFront.runBranches (h : InFront m f ops go) (branches : Branches α) (taken : Bool)
    (s : S) : m.runBranches (branches.onFirst f) taken s =
      (if taken then go s else m.skip ops s).bind (m.runBranches branches taken) := by
  have hbody : ∀ body : Block α, (if taken then m.runBlock (f body) s else m.skip
      (f body).flatten s) = (if taken then go s else m.skip ops s).bind fun s =>
        if taken then m.runBlock body s else m.skip body.flatten s := by
    intro body
    cases taken with
    | true => exact h.runBlock body s
    | false =>
      simp only [Bool.false_eq_true, if_false, h.flatten, skip_append]
  cases branches with
  | last body op =>
    simp only [Branches.onFirst, Machine.runBranches, hbody, bind_assoc]
  | toggle body op more =>
    simp only [Branches.onFirst, Machine.runBranches, hbody, bind_assoc]

theorem InFront.resume (h : InFront m f ops go) (code : Unopened α) (taken : List Bool) (s : S) :
    m.resume (code.onFirst f).block (code.onFirst f).inner taken s =
      (if taken.all id then go s else m.skip ops s).bind (m.resume code.block code.inner taken) := by
  obtain ⟨inner, block⟩ := code
  cases inner with
  | nil =>
    cases taken with
    | nil => exact h.runBlock block s
    | cons _ _ => exact (bind_fun_none _).symm
  | cons branches inner =>
    cases taken with
    | nil => exact (bind_fun_none _).symm
    | cons innermost outer =>
      simp only [Unopened.onFirst, Machine.resume, all_cons, id, Bool.and_eq_true]
      cases outer.all id with
      | true => simp only [if_true, and_true, h.runBranches, bind_assoc]
      | false =>
        simp only [Bool.false_eq_true, if_false, and_false, Branches.flatten_onFirst h.flatten,
          skip_append, bind_assoc]

theorem inFront_plain (op : α) : InFront m (.plain op) [op] (m.exec op) where
  flatten _ := by rw [Block.flatten]; rfl
  runBlock _ _ := by rw [Machine.runBlock]

theorem inFront_cond (op : α) (branches : Branches α) :
    InFront m (.cond op branches) (op :: branches.flatten)
      (fun s => (m.test op s).bind fun found => m.runBranches branches found.1 found.2) where
  flatten _ := by rw [Block.flatten]; rfl
  runBlock _ _ := by rw [Machine.runBlock, bind_assoc]

/-- **One operation more in front.** -/
theorem resume_nestOp (op : α) (code : Unopened α) (taken : List Bool) (s : S) :
    ((nestOp m.kind op code).bind fun code => m.resume code.block code.inner taken s) =
      (m.step op taken s).bind fun next => m.resume code.block code.inner next.1 next.2 := by
  obtain ⟨inner, block⟩ := code
  unfold nestOp step
  cases m.kind op with
  | plain =>
    simp only [bind_some, (inFront_plain op).resume, skip_cons, bind_map]
    cases taken.all id with
    | true => rfl
    | false =>
      simp only [Bool.false_eq_true, if_false, bind_assoc]
      rfl
  | opens =>
    cases inner with
    | nil => exact (bind_map.trans (bind_fun_none _)).symm
    | cons branches inner =>
      simp only [bind_some, (inFront_cond op branches).resume, skip_cons, bind_map]
      cases htaken : taken.all id with
      | true =>
        simp only [if_true, Function.comp_def, resume, htaken, bind_assoc]
      | false =>
        simp only [Bool.false_eq_true, if_false, Function.comp_def, resume, htaken, bind_map, bind_assoc]
  | toggles =>
    cases inner with
    | nil =>
      cases taken with
      | nil => rfl
      | cons _ _ => exact (bind_map.trans (bind_fun_none _)).symm
    | cons branches inner =>
      cases taken with
      | nil => rfl
      | cons innermost outer =>
        simp only [bind_some, resume, bind_map, Function.comp_def]
        cases outer.all id with
        | true =>
          simp only [if_true, runBranches, runBlock, Block.flatten, skip_nil, ite_self, bind_some, bind_assoc]
        | false =>
          simp only [Bool.false_eq_true, if_false, Branches.flatten, Block.flatten,
            nil_append, skip_cons, bind_assoc]
  | closes =>
    cases taken with
    | nil => rfl
    | cons innermost outer =>
      simp only [bind_some, resume, bind_map, Function.comp_def]
      cases outer.all id with
      | true =>
        simp only [if_true, runBranches, runBlock, Block.flatten, skip_nil, ite_self, bind_some]
      | false =>
        simp only [Bool.false_eq_true, if_false, Branches.flatten, Block.flatten,
          nil_append, skip_cons, skip_nil, bind_assoc, bind_some]

/-- **Flat code runs as the tree it is read as.** -/
theorem runFlat_eq_resume (ops : List α) (taken : List Bool) (s : S) : m.runFlat ops taken s =
      (nestFrom m.kind ops).bind fun code => m.resume code.block code.inner taken s := by
  induction ops generalizing taken s with
  | nil =>
    cases taken with
    | nil => rfl
    | cons _ _ => rfl
  | cons op ops ih =>
    have hstep : m.runFlat (op :: ops) taken s =
        (m.step op taken s).bind fun next => m.runFlat ops next.1 next.2 := by
      rw [runFlat, run, bind_assoc]
      rfl
    rw [hstep, nestFrom, bind_assoc]
    simp only [resume_nestOp, ih]
    cases nestFrom m.kind ops with
    | none =>
      cases m.step op taken s with
      | none => rfl
      | some _ => rfl
    | some _ => rfl

/-- **Flat code and its block agree**; without balanced conditionals both fail. -/
theorem runFlat_eq_runBlock (ops : List α) (s : S) :
    m.runFlat ops [] s = (nest m.kind ops).bind fun block => m.runBlock block s := by
  rw [runFlat_eq_resume, nest, bind_assoc]
  cases nestFrom m.kind ops with
  | none => rfl
  | some code =>
    obtain ⟨inner, block⟩ := code
    cases inner with
    | nil => rfl
    | cons _ _ => rfl

/-- **Another way to pass over operations**, the same in all states that executed operations
leave.  Code starts outside of conditionals, so it executes its first operation. -/
theorem runFlat_pass {pass : α → S → Option S} (keeps : S → Prop)
    (hexec : ∀ op s s', m.exec op s = some s' → keeps s')
    (htest : ∀ op s found, m.test op s = some found → keeps found.2)
    (hpass : ∀ op s s', keeps s → pass op s = some s' → keeps s')
    (hsame : ∀ op s, keeps s → m.pass op s = pass op s) (ops : List α) (s : S) :
    m.runFlat ops [] s = { m with pass }.runFlat ops [] s := by
  have hstep : ∀ op taken s, taken = [] ∨ keeps s → m.step op taken s = { m with pass }.step op taken s := by
    intro op taken s hstart
    unfold step
    rcases hstart with rfl | hkeeps
    · cases m.kind op with
      | plain => rfl
      | opens => rfl
      | toggles => rfl
      | closes => rfl
    · simp only [hsame op s hkeeps]
  have hafter : ∀ op taken s next, taken = [] ∨ keeps s →
      { m with pass }.step op taken s = some next → keeps next.2 := by
    intro op taken s next hstart hnext
    have hpassed : ∀ s', taken ≠ [] → pass op s = some s' → keeps s' := by
      intro s' hne
      exact hpass op s s' (hstart.resolve_left hne)
    unfold step at hnext
    split at hnext
    · obtain ⟨s', hs', rfl⟩ := map_eq_some_iff.mp hnext
      split at hs'
      · exact hexec op s s' hs'
      · rename_i hall
        exact hpassed s' (fun hnil => hall (by rw [hnil]; rfl)) hs'
    · obtain ⟨found, hfound, rfl⟩ := map_eq_some_iff.mp hnext
      split at hfound
      · exact htest op s found hfound
      · rename_i hall
        obtain ⟨s', hs', rfl⟩ := map_eq_some_iff.mp hfound
        exact hpassed s' (fun hnil => hall (by rw [hnil]; rfl)) hs'
    · obtain ⟨s', hs', rfl⟩ := map_eq_some_iff.mp hnext
      exact hpassed s' (cons_ne_nil _ _) hs'
    · obtain ⟨s', hs', rfl⟩ := map_eq_some_iff.mp hnext
      exact hpassed s' (cons_ne_nil _ _) hs'
    · cases hnext
  have hrun : ∀ ops taken s, taken = [] ∨ keeps s → m.run ops taken s = { m with pass }.run ops taken s := by
    intro ops
    induction ops with
    | nil => exact fun _ _ _ => rfl
    | cons op ops ih =>
      intro taken s hstart
      rw [run, run, hstep op taken s hstart]
      cases hnext : { m with pass }.step op taken s with
      | none => rfl
      | some next => exact ih next.1 next.2 (.inr (hafter op taken s next hstart hnext))
  rw [runFlat, runFlat, hrun ops [] s (.inl rfl)]

end Machine

end NestedCode
