import MeteredWasm.Memory.Linear
import MeteredWasm.Wasm.Module

/-!
# The memory a module starts with

The ceiling on the declared size of a memory, and the bytes that the data segments put into it.
-/

namespace MeteredWasm.Metering

open Wasm (Limits Import DataSegment Module)

/-! ## §1 The ceiling -/

/-- Lower the maximum to the ceiling; without one, the ceiling becomes the maximum. The initial size
must not pass the ceiling. -/
def clampLimits (ceiling : Nat) (l : Limits) : Except Fault Limits :=
  if ceiling < l.initial then .error (.initialMemory l.initial ceiling)
  else .ok { l with maximum := some (min (l.maximum.getD ceiling) ceiling) }

/-- Clamp an imported memory; other imports stay. -/
def clampImport (ceiling : Nat) (i : Import) : Except Fault Import :=
  match i.kind with
  | .memory l => do return { i with kind := .memory (← clampLimits ceiling l) }
  | _ => .ok i

/-- Clamp imports in order, up to the first that fails; what comes before it has been changed. -/
def clampImports (ceiling : Nat) : List Import → Except Fault Unit × List Import
  | [] => (.ok (), [])
  | i :: rest =>
    match clampImport ceiling i with
    | .error e => (.error e, i :: rest)
    | .ok i' =>
      let (outcome, rest') := clampImports ceiling rest
      (outcome, i' :: rest')

/-- Clamp the defined memory and then the imported ones. A failure leaves what has been changed. -/
def clampMemory (ceiling : Nat) (m : Module) : Except Fault Unit × Module :=
  match m.memory.mapM (clampLimits ceiling) with
  | .error e => (.error e, m)
  | .ok memory =>
    let (outcome, imports) := clampImports ceiling m.imports
    (outcome, { m with memory := memory, imports := imports })

/-! ## §2 The image -/

/-- Lay a segment over an image, which is filled up with zeros as far as the segment reaches. -/
def overlay (image : ByteArray) (s : DataSegment) : ByteArray :=
  let padded := image ++ repeated 0 (s.offset + s.bytes.length - image.size)
  s.bytes.toByteArray.copySlice 0 padded s.offset s.bytes.length

/-- Lay a segment over an image. It must start and end within the memory. -/
def overlayWithin (size : Nat) (image : ByteArray) (s : DataSegment) : Except Fault ByteArray :=
  if s.offset < size ∧ s.offset + s.bytes.length ≤ size then .ok (overlay image s)
  else .error .dataOutsideMemory

/-- What the memory of a module holds at first, without the zeros behind the last segment. -/
def initialImage (m : Module) : Except Fault ByteArray :=
  if m.data.isEmpty then .ok ByteArray.empty
  else
    match m.memoryLimits? with
    | none => .error .dataWithoutMemory
    | some l => m.data.foldlM (overlayWithin (l.initial * pageSize)) ByteArray.empty

end MeteredWasm.Metering
