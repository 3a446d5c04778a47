import SmtServer.Qfbv.UnsatCore
import SmtServer.Qfbv.Sat
import SmtServer.Qfbv.Tseitin
import SmtServer.Qfbv.Optimize
import SmtServer.Wire.BuildRequest
import SmtServer.Server.Racing
import SmtServer.Server.Cache
import SmtServer.Server.RumbaSound
import SmtServer.Server.Text
import SmtServer.Qfbv.Shortcuts.ShiftersSound
import SmtServer.Server.Literals
import SmtServer.Qfbv.Shortcuts.Congruence
import SmtServer.Qfbv.Shortcuts.StructuralSound
import SmtServer.Qfbv.Shortcuts.Witnesses
import SmtServer.Smtlib.ScriptMeaning
import SmtServer.Qfbv.Builder.Runs
import SmtServer.Qfbv.Shortcuts.Lfsr
import SmtServer.Qfbv.Shortcuts.Equivalences
import SmtServer.Qfbv.Shortcuts.PolynomialPass
import SmtServer.Qfbv.Shortcuts.PolynomialSound
import SmtServer.Qfbv.Shortcuts.Successor
import SmtServer.Qfbv.Shortcuts.AffineByteSound
import SmtServer.Qfbv.Shortcuts.FavaroMba
import SmtServer.Qfbv.Shortcuts.Arithmetic
import SmtServer.Qfbv.Shortcuts.Extensional
import SmtServer.Qfbv.Shortcuts.BrummayerSound
import SmtServer.Qfbv.Shortcuts.Adder
import SmtServer.Qfbv.Shortcuts.SimpleProcessorSafe
import SmtServer.Qfbv.Circuits
import SmtServer.Qfbv.ByteKernels
import SmtServer.Qfbv.ArithmeticCircuits
import SmtServer.Server.Smt2Sound
import SmtServer.Server.Symbols
import SmtServer.Wire.ContextRuns
import SmtServer.Qfbv.SolveSound
import SmtServer.Qfbv.Agreement
import SmtServer.Qfbv.FromWireSound
import SmtServer.Server.QfbvsmtrsSound
