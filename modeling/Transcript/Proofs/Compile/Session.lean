/-
**A compiler has no memory.**

A compiler may be used for one text after the other, and forget what it holds in between.  What it holds
when a text comes, be it that an earlier text was compiled or that it was refused halfway, does not
matter: each text comes to what it would come to with a compiler that has seen no other.

Main definitions:

* `Transcript.Workspace.report` — what compiling a text comes to, as the outcome in a workspace.

Main results:

* `Transcript.Compiler.session_eq_map` — a session with one compiler;
* `Transcript.Workspace.session_eq_map` — a session with one workspace;
* `Transcript.Workspace.step_fresh` — what a text comes to in a new workspace;
* `Transcript.Compiler.session_forgets` — **a compiler has no memory**.
-/

import Transcript.Proofs.Compile.Safety

set_option relaxedAutoImplicit false
set_option autoImplicit false

namespace Transcript

/-! ### Compilers -/

namespace Compiler

/-- One use leaves the configuration and the policy as they are, and what it comes to does not depend on
the state that the last text left. -/
theorem step_eq (policy : Policy) (config : Config) (leftover : Machine) (s : Step) :
    ∃ machine, (mk config policy leftover).step s =
      (((fresh policy config).step s).1, ⟨config, policy, machine⟩) := by
  cases s with
  | reset => exact ⟨.start, rfl⟩
  | parse switches text =>
      -- both begin with the state before the first token
      exact ⟨((fresh policy config).parse switches text).2.machine, rfl⟩

/-- In a session with one compiler, each text comes to what it comes to with a compiler of its own. -/
theorem session_eq_map (policy : Policy) (config : Config) (leftover : Machine) (steps : List Step) :
    (mk config policy leftover).session steps =
      steps.map fun s => ((fresh policy config).step s).1 := by
  induction steps generalizing leftover with
  | nil => rfl
  | cons s steps ih =>
      obtain ⟨machine, hstep⟩ := step_eq policy config leftover s
      rw [session, hstep, List.map_cons, ← ih machine]

end Compiler

/-! ### Workspaces -/

namespace Workspace

theorem reset_eq_fresh (w : Workspace) : w.reset = fresh := rfl

theorem step_congr (policy : Policy) (config : Config) (w w' : Workspace) (s : Compiler.Step) :
    w.step policy config s = w'.step policy config s := by
  cases s with
  | reset => rfl
  | parse switches text =>
      have hparse : (parse policy config switches text).run w =
          (parse policy config switches text).run w' := by
        change parse policy config switches text w = parse policy config switches text w'
        rw [parse, parse, reset_eq_fresh w, reset_eq_fresh w']
      rw [step, step, hparse]

/-- In a session with one workspace, each text comes to what it comes to in a new one. -/
theorem session_eq_map (policy : Policy) (config : Config) (w : Workspace)
    (steps : List Compiler.Step) :
    session policy config w steps = steps.map fun s => (fresh.step policy config s).1 := by
  induction steps generalizing w with
  | nil => rfl
  | cons s steps ih =>
      rw [session, step_congr policy config w fresh s, List.map_cons]
      dsimp only
      rw [ih]

/-- What compiling a text comes to, with the indexes of the tags. -/
def report : Except CompileError Program → Outcome
  | .ok p => .ok (p, p.tags)
  | .error e => .error (.refused e)

/-- In a new workspace, a text comes to what compiling it comes to. -/
theorem step_fresh (policy : Policy) (config : Config) (s : Compiler.Step) :
    (fresh.step policy config s).1 = ((Compiler.fresh policy config).step s).1.map report := by
  cases s with
  | reset => rfl
  | parse switches text =>
      have hparse := mirrors_parse policy config switches text fresh
      change (fresh.step policy config (.parse switches text)).1 =
        some (report (Compiler.compile policy config switches text))
      rw [step]
      generalize (parse policy config switches text).run fresh = result at hparse ⊢
      generalize Compiler.compile policy config switches text = compiled at hparse ⊢
      cases hparse with
      | error e w => rfl
      | ok h =>
          obtain ⟨rfl, -, -⟩ := h
          rfl

end Workspace

/-! ### Sessions -/

namespace Compiler

/-- **A compiler has no memory.**  In a session that begins with any state, each text comes to what it
comes to with a compiler that has seen no other; so it does where the session goes on in one workspace,
in whatever condition earlier texts left that. -/
theorem session_forgets (policy : Policy) (config : Config) (leftover : Machine) (w : Workspace)
    (steps : List Step) :
    (mk config policy leftover).session steps =
        steps.map (fun s => ((fresh policy config).step s).1) ∧
      w.session policy config steps =
        steps.map (fun s => (Workspace.fresh.step policy config s).1) ∧
      w.session policy config steps =
        steps.map (fun s => ((fresh policy config).step s).1.map Workspace.report) := by
  have hcompiler := session_eq_map policy config leftover steps
  have hworkspace := Workspace.session_eq_map policy config w steps
  refine ⟨hcompiler, hworkspace, ?_⟩
  rw [hworkspace]
  exact List.map_congr_left fun s _ => Workspace.step_fresh policy config s

end Compiler

end Transcript
