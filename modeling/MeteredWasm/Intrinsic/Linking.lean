import MeteredWasm.Intrinsic.Catalog
import MeteredWasm.Wasm.Module

/-!
# Linking

Every import of a module must be a function of the catalog, declared with the signature it has
there. A contract may only import from its own namespace; its module, once instrumented, may also
have the imports that the instrumentation added.
-/

namespace MeteredWasm

open Wasm (Signature Import Module)

/-- The namespaces that a module may import from. -/
inductive Visibility where
  | contractOnly
  | everything
deriving DecidableEq, Repr

namespace Visibility

/-- Can a namespace be seen? -/
def sees (v : Visibility) (namespace_ : String) : Bool :=
  namespace_ == Intrinsic.contractNamespace ||
    (v == .everything && namespace_ == Metering.injectedNamespace)

/-- The intrinsic behind a name, if it can be seen and has the declared signature. -/
def resolve (v : Visibility) (namespace_ name : String) (declared : Signature) :
    Except Fault Intrinsic :=
  match if v.sees namespace_ then Intrinsic.find? namespace_ name else none with
  | none => .error (.unresolvedImport namespace_ name)
  | some i =>
    if i.signature = declared then .ok i
    else .error (.importSignature namespace_ name declared i.signature)

/-- The intrinsic behind an import. Only functions can be imported. -/
def linkImport (v : Visibility) (types : List Signature) (i : Import) : Except Fault Intrinsic :=
  match i.kind with
  | .function type =>
    match types[type]? with
    | none => .error (.importWithoutType i.name)
    | some declared => v.resolve i.namespace_ i.name declared
  | _ => .error (.importNotFunction i.namespace_ i.name)

/-- The intrinsics behind all imports of a module, in order. -/
def link (v : Visibility) (m : Module) : Except Fault (List Intrinsic) :=
  m.imports.mapM (v.linkImport m.types)

end Visibility

end MeteredWasm
