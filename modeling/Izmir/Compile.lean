import Izmir.Compile.Emit

/-!
# Compiling programs
-/

namespace Izmir

/-- Falling off the end of a procedure returns zero. -/
def withReturn (config : Config) (code : List Line) : List Line :=
  if Assembly.endsInReturn code then code
  else
    code ++
      [.instr (config.backend.loadConstant 0 0), .instr (config.backend.ret 0)]

def Procedure.compile (config : Config) (p : Procedure) : Assembly.Routine where
  name := .procedure p.name
  arity := p.arity
  code := withReturn config ((p.body.withSlots (.ofFormals p.formals)).1.emit config 0)

/-- The code of a main statement. Falling off its end halts the program. -/
def Stmt.compileMain (config : Config) (s : Stmt String) : List Line :=
  (s.withSlots .empty).1.emit config 0

def Program.compile (config : Config) (p : Program) : Except CompileError Assembly := do
  p.check config.folding
  .ok
    { source := p.source
      procedures := p.procedures.map (·.compile config)
      main := .main (p.main.compileMain config) }

end Izmir
