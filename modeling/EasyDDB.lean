import EasyDDB.Catalog.Loader
import EasyDDB.Catalog.LineBreaks
import EasyDDB.Catalog.Requests
import EasyDDB.Catalog.SharedStore
import EasyDDB.Optimizer.SelectHf
import EasyDDB.Optimizer.SelectVf
import EasyDDB.Optimizer.JoinMeaning
import EasyDDB.Optimizer.ConjunctOrder
import EasyDDB.Optimizer.RootJoins
import EasyDDB.Optimizer.SelectMeaning
import EasyDDB.Optimizer.Statements
import EasyDDB.Optimizer.SiteChoice
import EasyDDB.Execution.WakeUp
import EasyDDB.Execution.Once
import EasyDDB.Execution.Calls
import EasyDDB.Execution.PlanBuilder
import EasyDDB.Execution.Transfer
import EasyDDB.Execution.VerticalJoin
import EasyDDB.Optimizer.Insert
import EasyDDB.Optimizer.Delete
import EasyDDB.Optimizer.WhereMeaning
import EasyDDB.Optimizer.NodeReuse
import EasyDDB.Optimizer.RootColumns
import EasyDDB.Optimizer.Marks
import EasyDDB.Optimizer.PrintFile
import EasyDDB.Execution.Termination
import EasyDDB.Execution.Values
import EasyDDB.Client.Shell
