import ArrayLang.Typing.Lowering

/-!
# Specialization

Specializes functions for the types of their arguments. Each signature is specialized once; a
signature that is met again while it is being specialized is refused. Fuel bounds how deeply the
specializations of called functions are nested.
-/

namespace ArrayLang

/-- Builds the specialization of a function for the types of its bound parameters. -/
def buildTypedFn (specialize : Specializer) (func : FnDecl) (params : List (String × Ty)) :
    Typing TypedFn := do
  let inference ← inferFn specialize func params
  let lowered ← lowerFn specialize func params inference
  let inputTypes := params.map (·.2)
  return {
    name := specializedName func.name inputTypes
    argNames := lowered.argNames
    inputTypes
    body := lowered.body
    returnType := inference.returnType
    typeEnv := lowered.typeEnv }

/-- The specialization of a function for the types of its bound parameters: the recorded one, or one
that is built and recorded now. Called functions are specialized as given. -/
def specializeOnce (specialize : Specializer) (func : FnDecl) (params : List (String × Ty)) :
    Typing TypedFn := do
  let key : Signature := (func.name, params.map (·.2))
  match (← get).specialization? key with
  | some typed => return typed
  | none =>
    if (← get).inProgress.contains key then Typing.fail (.recursive func.name)
    modify (·.beginSpecialization key)
    let built ← Typing.attempt (buildTypedFn specialize func params)
    modify (·.endSpecialization key)
    match built with
    | .ok typed =>
      modify (·.recordSpecialization key typed)
      return typed
    | .error stop => throw stop

/-- The specialization of a function for the types of its bound parameters, with called functions
specialized in the same way, nested as deeply as there is fuel. -/
def specializeBound : Nat → Specializer
  | 0 => fun _ _ => throw .outOfFuel
  | fuel + 1 => specializeOnce (specializeBound fuel)

/-- The specialization of a named function for positional arguments of the given types. -/
def specialize (fuel : Nat) (name : String) (types : List Ty) : Typing TypedFn :=
  Annotate.specializeNamed (specializeBound fuel) name types

end ArrayLang
