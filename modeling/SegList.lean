import SegList.Lib.Lts
import SegList.Lib.Walk
import SegList.Lib.Tile
import SegList.Lib.Linked
import SegList.Pool.Client
import SegList.Refine.Bucket
import SegList.Safety.Layout
import SegList.Safety.Payload
import SegList.Safety.Lists
import SegList.Safety.Refinement
import SegList.Safety.Failure
import SegList.Safety.Checker
import SegList.Safety.Accesses
import SegList.Safety.Confluence
import SegList.Safety.Complete
import SegList.Safety.Realloc
import SegList.Safety.Sizes
import SegList.Safety.Kept
import SegList.Safety.Contents
import SegList.Safety.Coalesce
import SegList.Safety.Surgery
import SegList.Driver.Verdict
import SegList.Driver.Replay
import SegList.Safety.Objects
import SegList.Model.Trace
import SegList.Safety.Space
import SegList.Driver.ReadTrace
import SegList.Driver.Report
import SegList.Driver.Util
import SegList.Driver.Session
import SegList.Safety.Cost
import SegList.Driver.Fcyc
import SegList.Safety.Position
import SegList.Safety.Lazy
import SegList.Safety.Memcpy
import SegList.Driver.Agree
import SegList.Safety.Canonical
import SegList.Safety.Dump
import SegList.Safety.Fit
import SegList.Safety.Overrun
