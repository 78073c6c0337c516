import KernelExamples.Proc

/-!
# Parameters in proc nodes

`filesystem/my_proc.c`, with one parameter, and `filesystem/my_new_proc.c`, with two
parameters and the node's number in its `PDE_DATA`. A read shows a parameter as a line of
decimal text, and a write sets it.

A node can be read in pieces exactly when the first buffer takes the text that is copied
(`param_pieces_iff`) : both drivers copy `strlen(mydata)` bytes into any buffer.
-/

namespace KernelExamples

open Text Proc

/-! ## `my_proc` -/

namespace MyProc

/-- `param` after loading. -/
def initial : Int32 := 100

def myProcRead (param : Int32) : ℕ → ℤ → ℕ → ReadResult := procRead (line param)

/-- The value returned and `param` after the call. -/
def myProcWrite (param : Int32) (w : WriteCall) : ℤ × Int32 :=
  match w.copied with
  | none => (-EFAULT, param)
  | some str => (w.count, (scanInt str).getD param)

end MyProc

/-! ## `my_new_proc` -/

namespace MyNewProc

/-- The two nodes, with `PDE_DATA` `1` and `2`. -/
inductive Node
  | param1
  | param2
  deriving DecidableEq

structure Params where
  param1 : Int32
  param2 : Int32

/-- The parameters after loading. -/
def initial : Params := ⟨100, 200⟩

def Params.get (s : Params) : Node → Int32
  | .param1 => s.param1
  | .param2 => s.param2

def myProcRead (s : Params) (node : Node) : ℕ → ℤ → ℕ → ReadResult :=
  procRead (line (s.get node))

/-- The value returned and the parameters after the call. -/
def myProcWrite (s : Params) (node : Node) (w : WriteCall) : ℤ × Params :=
  match w.copied with
  | none => (-EFAULT, s)
  | some str =>
    match node with
    | .param1 => (w.count, { s with param1 := (scanInt str).getD s.param1 })
    | .param2 => (w.count, { s with param2 := (scanInt str).getD s.param2 })

end MyNewProc

/-! ## Reading in pieces -/

theorem line_lt (n : Int32) : (line n).length < 2 ^ 32 :=
  (length_line_le n).trans_lt (by decide)

/-- For every value of the parameters, every node, and all buffer sizes and faults, a
reader gets the text in pieces that fit its buffers exactly when the first buffer takes
what the first read copies. -/
theorem param_pieces_iff (param : Int32) (s : MyNewProc.Params) (node : MyNewProc.Node)
    (qs : List Request) :
    (Pieces (line param) (MyProc.myProcRead param) qs ↔ FirstFits (line param) qs) ∧
      (Pieces (line (s.get node)) (MyNewProc.myProcRead s node) qs ↔
        FirstFits (line (s.get node)) qs) :=
  ⟨pieces_iff (line_lt param) qs, pieces_iff (line_lt (s.get node)) qs⟩

/-- `100` and a newline, read with a buffer of one byte. -/
theorem not_pieces_one_byte : ¬Pieces (line 100) (MyProc.myProcRead 100) [⟨1, 0⟩] := by
  intro h
  have := (h.fits _ List.mem_cons_self).2
  revert this
  decide

end KernelExamples
