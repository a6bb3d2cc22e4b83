import OptPasses.IR
import OptPasses.Dominators
import OptPasses.ValueNumbering
import OptPasses.RedundancyAnalysis
import OptPasses.RedundancyElimination
import OptPasses.Reanalysis
import OptPasses.Semantics
import OptPasses.KeySoundness
import OptPasses.EliminationCorrect
import OptPasses.ConstantFolding
import OptPasses.Pipeline
import OptPasses.LoopUnrolling
import OptPasses.Statistics
