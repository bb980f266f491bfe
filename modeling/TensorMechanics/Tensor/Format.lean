import TensorMechanics.Tensor

/-!
# Tensors in data files

A tensor is stored as the flat list of its entries, in row-major order, in whatever format the file is.
So a format only has to say how lists are written and how a list is read off the front of the content.
The dimension and the rank are not part of a file, so reading a tensor checks the length of the list.
-/

namespace TensorMechanics

variable {σ ε α : Type} {d r : Nat}

/-- Reads a tensor where a list of its entries can be read. The length of the list is checked when all
of it has been read. -/
def Tensor.reader (list : StateT σ (Except ε) (List α)) (refuse : ShapeError → ε) (d r : Nat) :
    StateT σ (Except ε) (Tensor α d r) := do
  let xs ← list
  match Tensor.ofList d r xs with
  | .ok t => return t
  | .error e => throw (refuse e)

theorem Tensor.run_reader (list : StateT σ (Except ε) (List α)) (refuse : ShapeError → ε) (d r : Nat)
    (content : σ) :
    (reader list refuse d r).run content = do
      let (xs, rest) ← list.run content
      let t ← (ofList d r xs).mapError refuse
      return (t, rest) := by
  rw [reader, StateT.run_bind]
  congr 1
  funext ⟨xs, rest⟩
  dsimp only
  cases ofList d r xs with
  | ok t => rfl
  | error e => rfl

theorem Tensor.run_reader_of_ok {list : StateT σ (Except ε) (List α)} {refuse : ShapeError → ε}
    {content rest : σ} {xs : List α} (h : list.run content = .ok (xs, rest)) :
    (reader list refuse d r).run content =
      (ofList d r xs).mapError refuse >>= fun t => .ok (t, rest) := by
  rw [run_reader, h]
  rfl

/-- How lists of scalars are kept in data files. The content of a file has type `σ`. -/
structure ListFormat (σ ε α : Type) where
  /-- The content for a list. -/
  write : List α → σ
  /-- Reads a list. The answer comes with the rest of the content. -/
  read : StateT σ (Except ε) (List α)
  /-- The error for a list of another length than a tensor has entries. -/
  refuse : ShapeError → ε

namespace ListFormat

/-- The content for a tensor. -/
def writeTensor (format : ListFormat σ ε α) (t : Tensor α d r) : σ := format.write t.toList

/-- Reads a tensor. -/
def readTensor (format : ListFormat σ ε α) (d r : Nat) : StateT σ (Except ε) (Tensor α d r) :=
  Tensor.reader format.read format.refuse d r

end ListFormat

end TensorMechanics
